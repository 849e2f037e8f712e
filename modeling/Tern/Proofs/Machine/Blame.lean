import Tern.Diagnostic
import Tern.Proofs.Machine.Catching
import Tern.Proofs.Machine.Code
import Tern.Proofs.Grammar.Placement

/-!
# Where errors are placed

An error gets its place from the innermost node that fails: the expression or the statement whose
own step the fault comes out of, when everything below that node has ended without a signal. The
error keeps the place, its kind and its message on the way out, through all expressions,
statements and calls, until a `catch` clause or the top level takes the throw that was made of it.

* `Fault.thrownAt`: the throw that is made of a fault at a place;
* `Blames`: a run comes to a node at a place, which raises a fault in its own step;
* `blames_of_signal`: every error that a run ends with comes from such a node;
* `innermost_of_raises`: everything below the node ends without a signal;
* `errors_placed`: the errors that arrive at `catch` clauses and at the top level.
-/

namespace Tern

/-! ## Faults at a place -/

/-- What is thrown for a fault at a place. -/
def Fault.thrownAt (f : Fault) (place : Span) : Thrown :=
  ⟨.string f.message, some ⟨f, some place⟩, some place⟩

theorem RuntimeError.fault_attach (e : RuntimeError) (span : Option Span) :
    (e.attach span).fault = e.fault := by
  unfold attach
  cases e.span <;> rfl

namespace Signal

/-- The error that a signal carries. -/
def error? : Signal → Option RuntimeError
  | fault e => some e
  | thrown t => t.error
  | overflow _ | failure _ | exhausted => none

/-- A signal that carries the fault at the place. -/
inductive Carries (f : Fault) (place : Span) : Signal → Prop where
  | fault : Carries f place (.fault ⟨f, some place⟩)
  | thrown : Carries f place (.thrown (f.thrownAt place))

/-- Any signal but a fault without a place. -/
def Settled : Signal → Prop
  | fault e => e.span ≠ none
  | _ => True

variable {s : Signal} {span : Option Span} {f : Fault} {place : Span}

theorem Carries.eq_of_fault {e : RuntimeError} (h : (Signal.fault e).Carries f place) :
    e = ⟨f, some place⟩ := by
  cases h
  rfl

theorem Carries.locate (h : s.Carries f place) : (s.locate span).Carries f place := by
  cases h with
  | fault => exact .fault
  | thrown => exact .thrown

theorem Carries.caught (h : s.Carries f place) : (s.caught span).Carries f place := by
  cases h with
  | fault => exact .thrown
  | thrown => exact .thrown

theorem Settled.locate (h : s.Settled) : (s.locate span).Settled := by
  cases s with
  | fault e =>
    change (e.attach span).span ≠ none
    unfold RuntimeError.attach
    cases hSpan : e.span with
    | none => exact absurd hSpan h
    | some place =>
      simp only [ne_eq]
      rw [hSpan]
      exact Option.some_ne_none place
  | _ => trivial

theorem settled_caught (span : Option Span) (s : Signal) : (s.caught span).Settled := by
  cases s with
  | _ => trivial

theorem settled_locate (s : Signal) (h : span ≠ none) : (s.locate span).Settled := by
  cases s with
  | fault e =>
    change (e.attach span).span ≠ none
    unfold RuntimeError.attach
    cases hSpan : e.span with
    | none => exact h
    | some place =>
      simp only [ne_eq]
      rw [hSpan]
      exact Option.some_ne_none place
  | _ => trivial

end Signal

namespace Task

/-- The node that a task is about, where it is a whole expression or statement. -/
def node? : Task → Option Node
  | evaluate _ _ e => some (.expr e)
  | execute _ _ s => some (.stmt s)
  | _ => none

section

variable {t : Task} {s : Signal} {f : Fault} {place : Span} {n : Node}

theorem carries_handOn (h : s.Carries f place) : (t.handOn s).Carries f place := by
  cases t with
  | evaluate => exact h.locate
  | execute => exact h.caught
  | _ => exact h

theorem settled_handOn (h : s.Settled) : (t.handOn s).Settled := by
  cases t with
  | evaluate => exact h.locate
  | execute => exact s.settled_caught _
  | _ => exact h

theorem handOn_of_no_node (h : t.node? = none) : t.handOn s = s := by
  cases t with
  | evaluate | execute => cases h
  | _ => rfl

/-- A node with a place gives it to a fault that has none. -/
theorem carries_of_node (hNode : t.node? = some n) (hPlace : n.span = some place) :
    (t.handOn (.fault ⟨f, none⟩)).Carries f place := by
  cases t with
  | evaluate depth env e =>
    cases hNode
    have hSpan : e.span = some place := hPlace
    rw [handOn, hSpan]
    exact .fault
  | execute depth env st =>
    cases hNode
    have hSpan : st.span = some place := hPlace
    rw [handOn, hSpan]
    exact .thrown
  | _ => cases hNode

theorem settled_of_node (hNode : t.node? = some n) (hPlace : n.span ≠ none) :
    (t.handOn s).Settled := by
  cases t with
  | evaluate depth env e =>
    cases hNode
    exact s.settled_locate hPlace
  | execute depth env st => exact s.settled_caught _
  | _ => cases hNode

theorem exists_fault {cfg : Settings} {inner : Worker} {e : RuntimeError} {m : Machine}
    (h : t.signal? (t.core cfg inner m) = some (.fault e)) :
    ∃ m', t.core cfg inner m = .error (.fault e) m' := by
  cases hCore : t.core cfg inner m with
  | error s m' =>
    rw [hCore] at h
    cases h
    exact ⟨m', rfl⟩
  | ok r m' =>
    rw [hCore] at h
    obtain ⟨thrown, -, hFault⟩ := Option.map_eq_some_iff.mp h
    cases hFault

/-- Nothing but a lack of room makes an error of another signal, and nothing changes the fault of
an error. -/
theorem error?_handOn {e : RuntimeError} (h : (t.handOn s).error? = some e)
    (hHost : e.fault ≠ .hostStack) : ∃ e₀, s.error? = some e₀ ∧ e₀.fault = e.fault := by
  cases t with
  | evaluate depth env st =>
    cases s with
    | fault e₀ =>
      cases h
      exact ⟨e₀, rfl, (e₀.fault_attach _).symm⟩
    | _ => exact ⟨e, h, rfl⟩
  | execute depth env st =>
    cases s with
    | fault e₀ =>
      cases h
      exact ⟨e₀, rfl, (e₀.fault_attach _).symm⟩
    | overflow message =>
      cases h
      exact absurd rfl hHost
    | _ => exact ⟨e, h, rfl⟩
  | _ => exact ⟨e, h, rfl⟩

end

end Task

/-! ## From the node to the catch -/

/-- In the run of `t` from `m` a node that stands at the place raises the fault in its own step,
and no `try` statement on the way to the node has it in its body. -/
inductive Blames (cfg : Settings) (fuel : Nat) (t : Task) (m : Machine) (f : Fault)
    (place : Span) : Prop where
  | intro {k : Nat} {t' : Task} {m' m'' : Machine} {n : Node}
      (leads : Leads cfg fuel t m (k + 1) t' m') (node : t'.node? = some n)
      (stands : n.span = some place)
      (raises : t'.core cfg (run cfg k) m' = .error (.fault ⟨f, none⟩) m'')

section

variable {cfg : Settings} {fuel k j : Nat} {t t' t'' : Task} {m m' m'' : Machine} {s : Signal}
  {f : Fault} {place : Span} {n : Node}

theorem Moment.trans (h : Moment cfg fuel t m k t' m') (h' : Moment cfg k t' m' j t'' m'') :
    Moment cfg fuel t m j t'' m'' := by
  induction h' with
  | start => exact h
  | part _ need ih => exact .part ih need

theorem Leads.trans (h : Leads cfg fuel t m k t' m') (h' : Leads cfg k t' m' j t'' m'') :
    Leads cfg fuel t m j t'' m'' := by
  induction h' with
  | start => exact h
  | part _ need unshielded ih => exact .part ih need unshielded

/-- What is led to is the start itself, or goes through a first part. -/
theorem Leads.start_or_part (h : Leads cfg (fuel + 1) t m k t' m') :
    k = fuel + 1 ∨ ∃ t₁ m₁, Needs cfg (run cfg fuel) t m t₁ m₁ ∧ ¬TryBody m t t₁ ∧
      Leads cfg fuel t₁ m₁ k t' m' := by
  have hCases : (k = fuel + 1 ∧ t' = t ∧ m' = m) ∨ ∃ t₁ m₁, Needs cfg (run cfg fuel) t m t₁ m₁ ∧
      ¬TryBody m t t₁ ∧ Leads cfg fuel t₁ m₁ k t' m' := by
    induction h with
    | start => exact .inl ⟨rfl, rfl, rfl⟩
    | @part k t₁ t₂ m₁ m₂ before need unshielded ih =>
      rcases ih with ⟨hFuel, rfl, rfl⟩ | ⟨u, l, hNeeds, hPart, hLeads⟩
      · obtain rfl := Nat.succ.inj hFuel
        exact .inr ⟨t₂, m₂, need, unshielded, .start⟩
      · exact .inr ⟨u, l, hNeeds, hPart, .part hLeads need unshielded⟩
  exact hCases.imp_left And.left

/-- What is kept on the way out of every task is kept on the way out of a run. -/
theorem signal_of_leads {P : Signal → Prop} (hP : ∀ t s, P s → P (Task.handOn t s))
    (hLeads : Leads cfg fuel t m k t' m') (hSignal : t'.signal? (run cfg k t' m') = some s)
    (hs : P s) : ∃ s', t.signal? (run cfg fuel t m) = some s' ∧ P s' := by
  induction hLeads generalizing s with
  | start => exact ⟨s, hSignal, hs⟩
  | part _ need unshielded ih => exact ih (signal_of_needs need unshielded hSignal) (hP _ _ hs)

theorem signal?_raises {e : RuntimeError}
    (h : t.core cfg (run cfg fuel) m = .error (.fault e) m') :
    t.signal? (run cfg (fuel + 1) t m) = some (t.handOn (.fault e)) := by
  change t.signal? (step cfg (run cfg fuel) t m) = _
  rw [Task.signal?_step, h]
  rfl

/-- A fault that a node raises is what the run ends with. -/
theorem Blames.signal (h : Blames cfg fuel t m f place) :
    ∃ s, t.signal? (run cfg fuel t m) = some s ∧ s.Carries f place := by
  obtain ⟨leads, node, stands, raises⟩ := h
  exact signal_of_leads (fun _ _ => Task.carries_handOn) leads (signal?_raises raises)
    (Task.carries_of_node node stands)

/-- Everything below a node that raises a fault in its own step ends without a signal: it would
have come out of the step in place of the fault. -/
theorem innermost_of_raises (raises : t.core cfg (run cfg fuel) m = .error (.fault ⟨f, none⟩) m'')
    (hLeads : Leads cfg (fuel + 1) t m k t' m') (hBelow : k ≤ fuel) (hNode : t'.node? = some n)
    (hPlace : n.span ≠ none) : t'.signal? (run cfg k t' m') = none := by
  cases hSignal : t'.signal? (run cfg k t' m') with
  | none => rfl
  | some s =>
    have hSettled : s.Settled := by
      cases k with
      | zero =>
        cases hSignal
        trivial
      | succ k =>
        change t'.signal? (step cfg (run cfg k) t' m') = some s at hSignal
        rw [Task.signal?_step] at hSignal
        obtain ⟨s₀, -, rfl⟩ := Option.map_eq_some_iff.mp hSignal
        exact Task.settled_of_node hNode hPlace
    obtain ⟨t₁, m₁, hNeeds, hPart, hRest⟩ := hLeads.start_or_part.resolve_left (by omega)
    obtain ⟨s₁, hFirst, hSettled₁⟩ :=
      signal_of_leads (fun _ _ => Task.settled_handOn) hRest hSignal hSettled
    have hCore := core_of_needs hNeeds hPart hFirst
    rw [raises] at hCore
    cases hCore
    exact absurd rfl hSettled₁

end

/-! ## From the catch to the node -/

section

variable {cfg : Settings} {fuel : Nat} {t : Task} {m : Machine} {s : Signal}

/-- The handler of a `try` statement is not its body: its scope is a later one. -/
theorem not_tryBody_of_breaksAt {inner : Worker} {depth : Nat} {env : Env} {body : Block}
    {param : Ident} {handler : Block} {span : Option Span} {c : Completion} {m₁ m' : Machine}
    {t' : Task} (hScopes : m.entered.heap.scopes.size ≤ m₁.heap.scopes.size)
    (hBreaks : BreaksAt (Step.afterBody cfg depth env param handler c) inner m₁ t' m') :
    ¬TryBody m (.execute depth env (.tryCatch body param handler span)) t' := by
  intro hTryBody
  have hBody : t' = .inScope depth env m body := by
    cases hTryBody
    rfl
  cases c with
  | throw t =>
    obtain ⟨text, -, hHandler, -⟩ := Step.of_breaksAt_afterBody hBreaks
    have hSame : m₁.heap.scopes.size = m.heap.scopes.size :=
      (Env.mk.inj (Task.executeAll.inj (hHandler.symm.trans hBody)).2.1).1
    have hMore : m.heap.scopes.size < m.entered.heap.scopes.size := by
      simp [Machine.entered, Machine.withHeap, Heap.newScope]
    omega
  | _ => exact Step.not_breaksAt_afterBody (by simp) hBreaks

/-- A signal that leaves the core of a step is one of a part that nothing shields, or fresh. -/
theorem stems_of_core (hSignal : t.signal? (t.core cfg (run cfg fuel) m) = some s) :
    (∃ t' m', Needs cfg (run cfg fuel) t m t' m' ∧ ¬TryBody m t t' ∧
      t'.signal? (run cfg fuel t' m') = some s) ∨ s.Fresh := by
  by_cases hTry : ∃ depth env body param handler span,
      t = .execute depth env (.tryCatch body param handler span)
  · obtain ⟨depth, env, body, param, handler, span, rfl⟩ := hTry
    cases hRoom : cfg.isFull depth with
    | true =>
      have hCore : (Task.execute depth env (.tryCatch body param handler span)).core cfg
          (run cfg fuel) m = .error (.overflow overflowMessage) m := by
        change (if cfg.isFull depth then Eval.overflow else _ : Eval Completion) m = _
        rw [if_pos hRoom]
        rfl
      rw [hCore] at hSignal
      cases hSignal
      exact .inr trivial
    | false =>
      rw [core_tryCatch hRoom, Eval.bind_eq] at hSignal
      cases hBody : run cfg fuel (.inScope depth env m body) m.entered with
      | error s' m₁ =>
        rw [hBody] at hSignal
        cases hSignal
        have hFinal := final_of_executeAll hBody
        cases s with
        | failure | exhausted => exact .inr trivial
        | _ => cases hFinal
      | ok c m₁ =>
        rw [hBody] at hSignal
        refine ((Step.relays_afterBody depth env param handler c).stems hSignal).imp_left ?_
        rintro ⟨t', m', hBreaks, hPart⟩
        have hAfter := BreaksAt.bind_right (Relays.ask (.inScope depth env m body)).script
          hBody hBreaks
        refine ⟨t', m', needs_iff.mpr (Task.breaksAt_core.mpr fun message => ?_), ?_, hPart⟩
        · obtain ⟨m₂, hEnd⟩ := hAfter message
          exact ⟨m₂, (core_tryCatch hRoom).trans hEnd⟩
        · exact not_tryBody_of_breaksAt (scopes_le_of_run hBody) hBreaks
  · have hRelays := relays_core cfg t fun depth env body param handler span h =>
      hTry ⟨depth, env, body, param, handler, span, h⟩
    refine (hRelays.stems hSignal).imp_left ?_
    rintro ⟨t', m', hBreaks, hPart⟩
    refine ⟨t', m', needs_iff.mpr (Task.breaksAt_core.mpr hBreaks), ?_, hPart⟩
    rintro ⟨depth, env, body, param, handler, span⟩
    exact hTry ⟨depth, env, body, param, handler, span, rfl⟩

/-- Every node that the run comes by has a place. -/
def Task.AllPlaced (cfg : Settings) (fuel : Nat) (t : Task) (m : Machine) : Prop :=
  ∀ k t' m' n, Moment cfg fuel t m k t' m' → t'.node? = some n → n.span ≠ none

/-- Every error that a run ends with has its place from a node that raises it, unless the run is
that of a step inside such a node, which has not given it a place yet. -/
theorem blames_of_signal {e : RuntimeError} (hPlaced : t.AllPlaced cfg fuel m)
    (hSignal : t.signal? (run cfg fuel t m) = some s) (hError : s.error? = some e)
    (hHost : e.fault ≠ .hostStack) :
    (t.node? = none ∧ s = .fault ⟨e.fault, none⟩) ∨
      ∃ place, s.Carries e.fault place ∧ Blames cfg fuel t m e.fault place := by
  induction fuel generalizing t m s e with
  | zero =>
    cases hSignal
    cases hError
  | succ fuel ih =>
    change t.signal? (step cfg (run cfg fuel) t m) = some s at hSignal
    rw [Task.signal?_step] at hSignal
    obtain ⟨s₀, hCore, rfl⟩ := Option.map_eq_some_iff.mp hSignal
    obtain ⟨e₀, hError₀, hFault⟩ := Task.error?_handOn hError hHost
    -- a fault without a place is given the one of the node, if this is the step of one
    have hRaw : s₀ = .fault ⟨e.fault, none⟩ →
        (t.node? = none ∧ t.handOn s₀ = .fault ⟨e.fault, none⟩) ∨
          ∃ place, (t.handOn s₀).Carries e.fault place ∧
            Blames cfg (fuel + 1) t m e.fault place := by
      rintro rfl
      cases hNode : t.node? with
      | none => exact .inl ⟨rfl, Task.handOn_of_no_node hNode⟩
      | some n =>
        obtain ⟨place, hPlace⟩ := Option.ne_none_iff_exists'.mp (hPlaced _ _ _ _ .start hNode)
        obtain ⟨m', hRaises⟩ := Task.exists_fault hCore
        exact .inr ⟨place, Task.carries_of_node hNode hPlace, .start, hNode, hPlace, hRaises⟩
    rcases stems_of_core hCore with ⟨t', m', hNeeds, hPart, hSignal'⟩ | hFresh
    · have hPlaced' : t'.AllPlaced cfg fuel m' := fun k u l n hMoment =>
        hPlaced k u l n (.trans (.part .start hNeeds) hMoment)
      rcases ih hPlaced' hSignal' hError₀ (hFault ▸ hHost) with
        ⟨-, rfl⟩ | ⟨place, hCarries, hBlames⟩
      · exact hRaw (by rw [hFault])
      · rw [hFault] at hCarries hBlames
        obtain ⟨leads, node, stands, raises⟩ := hBlames
        exact .inr ⟨place, Task.carries_handOn hCarries,
          .trans (.part .start hNeeds hPart) leads, node, stands, raises⟩
    · cases s₀ with
      | fault e' =>
        cases hError₀
        have hSpan : e₀.span = none := hFresh
        refine hRaw ?_
        rw [← hFault, ← hSpan]
      | thrown thrown => exact absurd (hError₀.symm.trans hFresh) (Option.some_ne_none e₀)
      | _ => cases hError₀

end

/-! ## What arrives -/

/-- What of the errors of a run arrives at the place where a throw of it ends: just those that a
node raises, each with the place of its node. -/
structure PlacesErrors (cfg : Settings) (fuel : Nat) (t : Task) (m : Machine)
    (arrives : Thrown → Prop) : Prop where
  iff : ∀ f place, f ≠ .hostStack → (arrives (f.thrownAt place) ↔ Blames cfg fuel t m f place)
  only : ∀ thrown e, arrives thrown → thrown.error = some e → e.fault ≠ .hostStack →
    ∃ place, thrown = e.fault.thrownAt place

section

variable {cfg : Settings} {fuel depth : Nat} {t : Task} {env : Env} {body : List Stmt} {m : Machine}
  {arrives : Thrown → Prop}

/-- It is enough to know what becomes of the signals of the run. -/
theorem placesErrors_of_signal (hPlaced : t.AllPlaced cfg fuel m)
    (hBack : ∀ thrown, arrives thrown → ∃ s, t.signal? (run cfg fuel t m) = some s ∧
      (t.node? = none → s = .thrown thrown) ∧
      ∀ e, thrown.error = some e → e.fault ≠ .hostStack → ∃ e₀, s.error? = some e₀ ∧
        e₀.fault = e.fault ∧ ∀ place, s.Carries e.fault place → thrown = e.fault.thrownAt place)
    (hForth : ∀ s f place, t.signal? (run cfg fuel t m) = some s → s.Carries f place →
      arrives (f.thrownAt place)) : PlacesErrors cfg fuel t m arrives := by
  have hBlames : ∀ thrown e, arrives thrown → thrown.error = some e → e.fault ≠ .hostStack →
      ∃ place, thrown = e.fault.thrownAt place ∧ Blames cfg fuel t m e.fault place := by
    intro thrown e hArrives hError hHost
    obtain ⟨s, hSignal, hSame, hThrown⟩ := hBack thrown hArrives
    obtain ⟨e₀, hError₀, hFault, hPlace⟩ := hThrown e hError hHost
    rcases blames_of_signal hPlaced hSignal hError₀ (hFault ▸ hHost) with
      ⟨hNode, hRaw⟩ | ⟨place, hCarries, hBlames⟩
    · cases (hSame hNode).symm.trans hRaw
    · rw [hFault] at hCarries hBlames
      exact ⟨place, hPlace place hCarries, hBlames⟩
  refine ⟨fun f place hHost => ⟨fun hArrives => ?_, fun hBlames => ?_⟩,
    fun thrown e hArrives hError hHost => ?_⟩
  · obtain ⟨place', hSame, hBlames'⟩ := hBlames _ _ hArrives rfl hHost
    obtain rfl : place = place' := Option.some.inj (congrArg Thrown.span hSame)
    exact hBlames'
  · obtain ⟨s, hSignal, hCarries⟩ := hBlames.signal
    exact hForth s f place hSignal hCarries
  · obtain ⟨place, hSame, -⟩ := hBlames thrown e hArrives hError hHost
    exact ⟨place, hSame⟩

theorem exists_throw {r : EStateM.Result Signal Machine Completion} {s : Signal} {f : Fault}
    {place : Span} (hFinal : ∀ s m', r = .error s m' → s.Final)
    (hSignal : signal? Completion.throw? r = some s) (hCarries : s.Carries f place) :
    ∃ m', r = .ok (.throw (f.thrownAt place)) m' := by
  cases r with
  | ok c m' =>
    obtain ⟨thrown, hThrow, rfl⟩ := Option.map_eq_some_iff.mp hSignal
    cases hCarries
    cases c with
    | throw t =>
      cases hThrow
      exact ⟨m', rfl⟩
    | _ => cases hThrow
  | error s' m' =>
    cases hSignal
    have hs := hFinal _ _ rfl
    cases hCarries with
    | fault => exact hs.elim
    | thrown => exact hs.elim

/-- A run that ends with what it throws hands over just that. -/
theorem placesErrors_of_throws {r : EStateM.Result Signal Machine Completion}
    (hPlaced : t.AllPlaced cfg fuel m)
    (hRun : t.signal? (run cfg fuel t m) = Tern.signal? Completion.throw? r)
    (hFinal : ∀ s m', r = .error s m' → s.Final)
    (hArrives : ∀ thrown, arrives thrown ↔ ∃ m', r = .ok (.throw thrown) m') :
    PlacesErrors cfg fuel t m arrives := by
  refine placesErrors_of_signal hPlaced (fun thrown hThrown => ?_) fun s f place hSignal hCarries =>
    (hArrives _).mpr (exists_throw hFinal (hRun.symm.trans hSignal) hCarries)
  obtain ⟨m', hEnd⟩ := (hArrives thrown).mp hThrown
  refine ⟨.thrown thrown, ?_, fun _ => rfl, fun e hError _ =>
    ⟨e, hError, rfl, fun place hCarries => ?_⟩⟩
  · rw [hRun, hEnd]
    rfl
  · cases hCarries
    rfl

/-- The statements of a block hand over what they throw. -/
theorem placesErrors_executeAll
    (hPlaced : (Task.executeAll depth env body).AllPlaced cfg fuel m) :
    PlacesErrors cfg fuel (.executeAll depth env body) m fun thrown =>
      ∃ m', run cfg fuel (.executeAll depth env body) m = .ok (.throw thrown) m' :=
  placesErrors_of_throws hPlaced rfl (fun _ _ => final_of_executeAll) fun _ => Iff.rfl

/-! ### The top level -/

theorem executeTop_expr_throws {e : Expr} {span : Option Span} {thrown : Thrown} :
    (∃ v m', executeTop cfg env (.simple (.expr e span)) m = .ok (.throw thrown, v) m') ↔
      ∃ signal m', run cfg cfg.fuel (.evaluate 0 env e) m = .error signal m' ∧
        signal.toThrown? span = some thrown := by
  unfold executeTop evaluate
  dsimp only
  cases hRun : run cfg cfg.fuel (.evaluate 0 env e) m with
  | ok v m' => simp
  | error signal m' => cases hThrown : signal.toThrown? span <;> simp [hThrown]

theorem executeTop_throws {s : Stmt} {thrown : Thrown}
    (hOther : ∀ e span, s ≠ .simple (.expr e span)) :
    (∃ v m', executeTop cfg env s m = .ok (.throw thrown, v) m') ↔
      ∃ m', run cfg cfg.fuel (.execute 0 env s) m = .ok (.throw thrown) m' := by
  rw [executeTop_eq hOther, Eval.bind_eq]
  unfold execute
  cases hRun : run cfg cfg.fuel (.execute 0 env s) m with
  | ok c m' => simp [pure, EStateM.pure]
  | error signal m' => simp

/-- What is made a throw keeps its fault, and its place if it has one. -/
theorem error_of_toThrown {s : Signal} {span : Option Span} {thrown : Thrown} {e : RuntimeError}
    (h : s.toThrown? span = some thrown) (hError : thrown.error = some e)
    (hHost : e.fault ≠ .hostStack) : ∃ e₀, s.error? = some e₀ ∧ e₀.fault = e.fault ∧
      ∀ place, s.Carries e.fault place → thrown = e.fault.thrownAt place := by
  cases s with
  | fault e₀ =>
    cases h
    cases hError
    refine ⟨e₀, rfl, (e₀.fault_attach span).symm, fun place hCarries => ?_⟩
    have hPlace : e₀.span = some place := congrArg RuntimeError.span hCarries.eq_of_fault
    obtain ⟨f, span'⟩ := e₀
    subst hPlace
    rfl
  | thrown t =>
    cases h
    refine ⟨e, hError, rfl, fun place hCarries => ?_⟩
    cases hCarries
    rfl
  | overflow =>
    cases h
    cases hError
    exact absurd rfl hHost
  | failure | exhausted => cases h

/-- An expression that stands at the top level gets the place of the statement only if it has none
itself. -/
theorem placesErrors_topExpr {e : Expr} {span : Option Span}
    (hPlaced : (Task.evaluate 0 env e).AllPlaced cfg cfg.fuel m) :
    PlacesErrors cfg cfg.fuel (.evaluate 0 env e) m fun thrown =>
      ∃ v m', executeTop cfg env (.simple (.expr e span)) m = .ok (.throw thrown, v) m' := by
  refine placesErrors_of_signal hPlaced (fun thrown hArrives => ?_)
    fun signal f place hSignal hCarries => ?_
  · obtain ⟨signal, m', hRun, hThrown⟩ := executeTop_expr_throws.mp hArrives
    refine ⟨signal, ?_, fun hNode => (nomatch hNode), fun _ => error_of_toThrown hThrown⟩
    rw [hRun]
    rfl
  · obtain ⟨m', hRun⟩ := exists_error hSignal
    refine executeTop_expr_throws.mpr ⟨signal, m', hRun, ?_⟩
    cases hCarries with
    | fault => rfl
    | thrown => rfl

/-- The top level hands over what its statements throw. -/
theorem placesErrors_executeTop {s : Stmt} (hPlaced : (s.topTask env).AllPlaced cfg cfg.fuel m) :
    PlacesErrors cfg cfg.fuel (s.topTask env) m fun thrown =>
      ∃ v m', executeTop cfg env s m = .ok (.throw thrown, v) m' := by
  by_cases hExpr : ∃ e span, s = .simple (.expr e span)
  · obtain ⟨e, span, rfl⟩ := hExpr
    exact placesErrors_topExpr hPlaced
  · have hOther : ∀ e span, s ≠ .simple (.expr e span) := fun e span h => hExpr ⟨e, span, h⟩
    rw [Stmt.topTask_eq hOther] at hPlaced ⊢
    exact placesErrors_of_throws hPlaced rfl (fun _ _ => final_of_execute) fun _ =>
      executeTop_throws hOther

end

/-! ## Programs with places -/

/-- Every node of the tree has a span. -/
def Node.Spanned (n : Node) : Prop := n.All fun c => c.span ≠ none

/-- Every node of every function on the heap has a span. -/
def Heap.Spanned (h : Heap) : Prop :=
  ∀ c ∈ h.closures, (Node.stmt (.func c.definition)).Spanned

theorem Heap.codeHas_spanned {h : Heap} : h.CodeHas (fun _ n => n.Spanned) ↔ h.Spanned :=
  ⟨fun hCode c hc => (hCode c hc).elim fun _ => id, fun hSpanned c hc => ⟨.top, hSpanned c hc⟩⟩

theorem Node.hereditary_spanned : Node.Hereditary fun _ n => n.Spanned := by
  intro ctx n q (hSpanned : n.Spanned) hPart
  refine hSpanned.child ?_
  rw [← Node.map_snd_parts ctx n]
  exact List.mem_map_of_mem hPart

/-- A program that was read from a source has a span at every node. -/
theorem Program.spanned_of_parse {source : String} {p : Program}
    (hParse : Program.parse? source = .ok p) : (Node.program p).Spanned := by
  refine (grown_of_stream (TokenStream.spelled_ofSource source) hParse).all.mono fun n hOrigin => ?_
  obtain ⟨t, u, -, -, hSpan | hSpan⟩ := hOrigin.span
  · rw [hSpan]
    exact Option.some_ne_none _
  · rw [hSpan]
    exact Option.some_ne_none _

section

variable {cfg : Settings} {halt : Nat → Bool} {env : Env} {fuel : Nat} {t : Task} {m : Machine}

theorem allPlaced_of_fits (hInv : m.heap.CodeHas fun _ n => n.Spanned)
    (hFits : (codeHas fun _ n => n.Spanned).Fits m.heap t) : t.AllPlaced cfg fuel m := by
  intro k t' m' n hMoment hNode
  have hHere := (codeHas_lawful Node.hereditary_spanned cfg).fits_of_moment hInv hFits hMoment
  cases t' with
  | evaluate depth env e =>
    cases hNode
    obtain ⟨_, _, -, hCode⟩ := hHere.2
    exact hCode.here
  | execute depth env s =>
    cases hNode
    obtain ⟨_, _, -, hCode⟩ := hHere.2
    exact hCode.here
  | _ => cases hNode

/-- An uncaught throw is one of a statement at the top level. -/
theorem exists_starts_of_uncaught {body : List Stmt} {value : Value} {thrown : Thrown}
    {m' : Machine} (h : interpretFrom cfg halt env value body m = .ok (.uncaught thrown) m') :
    ∃ s n v m₁, Starts cfg halt env body m s n ∧
      executeTop cfg env s n = .ok (.throw thrown, v) m₁ := by
  induction body generalizing value m with
  | nil => cases h
  | cons s rest ih =>
    cases hHalt : halt m.executed with
    | true =>
      rw [interpretFrom_halted hHalt] at h
      cases h
    | false =>
      cases hRun : executeTop cfg env s m with
      | error signal m₁ =>
        rw [interpretFrom_error hHalt hRun] at h
        cases h
      | ok r m₁ =>
        obtain ⟨c, v⟩ := r
        rw [interpretFrom_ok hHalt hRun] at h
        cases c with
        | normal =>
          obtain ⟨s', n, v', m₂, hStarts, hThrow⟩ := ih h
          exact ⟨s', n, v', m₂, .later hHalt hRun hStarts, hThrow⟩
        | throw t =>
          obtain rfl : t = thrown := by
            change EStateM.bind (Eval.display cfg 0 t.value) _ _ = _ at h
            unfold EStateM.bind at h
            split at h
            · cases h
              rfl
            · cases h
          exact ⟨s, m, v, m₁, .first hHalt, hRun⟩
        | ret | breakLoop | continueLoop => cases h

end

/-- Where the errors of a program are placed when every node has a span, in the program and in the
functions that are on the heap already, the lack of room in the host aside.

* The errors that arrive at the top level are just those that a node raises in its own step,
  outside the bodies of all `try` statements; and just those arrive at a `catch` clause that a node
  raises so in the body of its statement. Each arrives as the throw of its fault, with the span of
  the node.
* The node is the innermost one that fails: every node below it ends without a signal.
* An error that nothing catches is one that arrives at the top level.
* The heap is again one of functions with spans.
* The line and the column of an error, and of the report of it, are the start of its span; its
  kind and its message are those of its fault. -/
theorem errors_placed {cfg : Settings} {halt : Nat → Bool} {env : Env} {p : Program} {m : Machine}
    (hProgram : (Node.program p).Spanned) (hHeap : m.heap.Spanned) :
    (∀ s n, Starts cfg halt env p.body m s n →
      (PlacesErrors cfg cfg.fuel (s.topTask env) n fun thrown =>
        ∃ v m', executeTop cfg env s n = .ok (.throw thrown, v) m') ∧
      (∀ k depth tryEnv body param handler span m₁,
        Moment cfg cfg.fuel (s.topTask env) n (k + 1)
          (.execute depth tryEnv (.tryCatch body param handler span)) m₁ →
        cfg.isFull depth = false →
        PlacesErrors cfg k (.inScope depth tryEnv m₁ body) m₁.entered fun thrown =>
          ∃ m', run cfg k (.inScope depth tryEnv m₁ body) m₁.entered = .ok (.throw thrown) m') ∧
      ∀ k t m₁ f m₂, Moment cfg cfg.fuel (s.topTask env) n (k + 1) t m₁ →
        t.core cfg (run cfg k) m₁ = .error (.fault ⟨f, none⟩) m₂ →
        ∀ j t' m' node, Leads cfg (k + 1) t m₁ j t' m' → j ≤ k → t'.node? = some node →
          t'.signal? (run cfg j t' m') = none) ∧
    (∀ thrown m', interpret cfg halt env p m = .ok (.uncaught thrown) m' →
      ∃ s n v m₁, Starts cfg halt env p.body m s n ∧
        executeTop cfg env s n = .ok (.throw thrown, v) m₁) ∧
    ((interpret cfg halt env p).final m).heap.Spanned ∧
    ∀ (f : Fault) (place : Span) text path,
      (Failure.runtime ⟨f, some place⟩).line? = some place.start.line ∧
      (Failure.runtime ⟨f, some place⟩).column? = some place.start.column ∧
      Diagnostic.ofThrown (f.thrownAt place) text path =
        ⟨.runtime, f.kind.text, f.message,
          some ⟨path, some place.start.line, some place.start.column⟩⟩ := by
  have L := codeHas_lawful Node.hereditary_spanned cfg
  have hBody : ∀ s ∈ p.body, (codeHas fun _ n => n.Spanned).Code () .top (.stmt s) := fun s hs =>
    hProgram.child (List.mem_map_of_mem hs)
  have hAt : ∀ h, (codeHas fun _ n => n.Spanned).At h () env := fun _ => trivial
  have hStart := Heap.codeHas_spanned.mpr hHeap
  refine ⟨fun s n hStarts => ?_, fun thrown m' => exists_starts_of_uncaught, ?_,
    fun f place text path => ⟨rfl, rfl, rfl⟩⟩
  · obtain ⟨hInv, hCode⟩ := L.inv_of_starts hAt hStart hBody hStarts
    have hFits := L.fits_topTask (hAt n.heap) hCode
    refine ⟨placesErrors_executeTop (allPlaced_of_fits hInv hFits), ?_, ?_⟩
    · intro k depth tryEnv body param handler span m₁ hMoment hRoom
      have hTry := L.fits_of_moment hInv hFits hMoment
      have hNeeds : Needs cfg (run cfg k) (.execute depth tryEnv (.tryCatch body param handler span))
          m₁ (.inScope depth tryEnv m₁ body) m₁.entered := needs_body_tryCatch hRoom
      have hInside := L.fits_of_needs hTry.1 hTry.2 hNeeds
      exact placesErrors_executeAll (allPlaced_of_fits hInside.1 hInside.2)
    · intro k t m₁ f m₂ hMoment hRaises j t' m' node hLeads hBelow hNode
      have hHere := L.fits_of_moment hInv hFits hMoment
      refine innermost_of_raises hRaises hLeads hBelow hNode ?_
      exact allPlaced_of_fits hHere.1 hHere.2 _ _ _ _ hLeads.moment hNode
  · exact Heap.codeHas_spanned.mp (L.holds_interpretFrom hAt hStart hBody).next.1

/-! ### An error inside a call -/

namespace BlameSample

def source : String := "func f() { return -lost; } f();"

/-- The place of the unknown name. -/
def place : Span := ⟨⟨1, 20⟩, ⟨1, 24⟩⟩

/-- The run of a program in a fresh session. -/
def outcome (p : Program) : EStateM.Result Signal Machine Outcome :=
  interpret Session.standard.settings Session.standard.halt Session.standard.globals p
    Session.standard.machine

set_option maxRecDepth 100000 in
theorem uncaught_lost : ∃ p m, Program.parse? source = .ok p ∧
    outcome p = .ok (.uncaught ((Fault.undefinedVariable "lost").thrownAt place)) m := by
  have hTokens : ∃ stream p, TokenStream.ofSource source = stream ∧
      Program.ofStream? stream = .ok p ∧
      ∃ m, outcome p = .ok (.uncaught ((Fault.undefinedVariable "lost").thrownAt place)) m := by
    refine ⟨?stream, ?program, ?scanned, ?read, ?machine, ?runs⟩
    case scanned =>
      unfold source
      cbv
      rfl
    case read => rfl
    case runs => rfl
  obtain ⟨stream, p, hStream, hRead, m, hRun⟩ := hTokens
  exact ⟨p, m, by rw [Program.parse?, hStream, hRead], hRun⟩

theorem spanned_standard : Session.standard.machine.heap.Spanned := by
  intro c hc
  simp [Session.standard, Session.create, Session.attach, Heap.newScope, Heap.empty] at hc

end BlameSample

open BlameSample in
/-- The name that is not there is to blame, and not the operator, the `return` statement, the call
or the statement around it. -/
theorem errors_placed_lost : ∃ p m s n, Program.parse? source = .ok p ∧
    outcome p = .ok (.uncaught ((Fault.undefinedVariable "lost").thrownAt place)) m ∧
    Starts Session.standard.settings Session.standard.halt Session.standard.globals p.body
      Session.standard.machine s n ∧
    Blames Session.standard.settings Session.standard.settings.fuel
      (s.topTask Session.standard.globals) n (.undefinedVariable "lost") place := by
  obtain ⟨p, m, hParse, hRun⟩ := uncaught_lost
  obtain ⟨hPlaces, hUncaught, -, -⟩ :=
    errors_placed (Program.spanned_of_parse hParse) spanned_standard
  obtain ⟨s, n, v, m₁, hStarts, hThrows⟩ := hUncaught _ m hRun
  have hIff := (hPlaces s n hStarts).1.iff (.undefinedVariable "lost") place (by simp)
  exact ⟨p, m, s, n, hParse, hRun, hStarts, hIff.mp ⟨v, m₁, hThrows⟩⟩

end Tern
