import Tern.Proofs.Machine.Moment
import Tern.Proofs.Machine.Order

/-!
# Steps as scripts

A step does operations of its own and hands parts to its worker, one after another; what it does
next depends on the answers so far, but on nothing else that the worker would do. `Scripted` says
this of a computation made with a worker. So a computation that comes out differently with
another worker has needed a part that the other one does differently.

* `Scripted`: operations that a discipline allows, and parts of a kind, in a row;
* `Scripted.breaksAt_of_ne`: two workers that lead apart differ on a part that is needed;
* `Scripted.final`: what the operations and the parts keep is kept;
* `Discipline.Lawful.scripted_evaluate`, `Discipline.Lawful.scripted_step`: expressions and steps
  are scripted.
-/

namespace Tern

/-- A computation that does operations of its own, which the discipline `D` allows, and tasks of
the kind `Asks`, which it hands to the worker. -/
inductive Scripted (D : Discipline) (Asks : Task → Prop) :
    {α : Type} → (Worker → Eval α) → Prop where
  | own {α : Type} {x : Eval α} (allowed : ∀ m, D.Inv m → D.Next m (x.final m)) :
      Scripted D Asks fun _ => x
  | ask {t : Task} (asks : Asks t) : Scripted D Asks fun inner => inner t
  | bind {α β : Type} {f : Worker → Eval α} {g : α → Worker → Eval β} (first : Scripted D Asks f)
      (after : ∀ a, Scripted D Asks (g a)) : Scripted D Asks fun inner => f inner >>= (g · inner)
  | located {α : Type} {f : Worker → Eval α} (span : Option Span) (inside : Scripted D Asks f) :
      Scripted D Asks fun inner => Eval.located span (f inner)
  | guarded {f : Worker → Eval Completion} (span : Option Span) (inside : Scripted D Asks f) :
      Scripted D Asks fun inner => Eval.guarded span (f inner)
  | deeper {α : Type} {f : Worker → Eval α} (inside : Scripted D Asks f) :
      Scripted D Asks fun inner => Eval.withCallDepth (f inner)

/-- The computation needs the task from that machine: wherever the worker breaks off at it, so
does the computation. -/
def BreaksAt {α : Type} (f : Worker → Eval α) (inner : Worker) (m : Machine) (t : Task)
    (k : Machine) : Prop :=
  ∀ message, ∃ m', f (inner.interrupt t k message) m = .error (.failure message) m'

/-! ## Ends of computations -/

namespace Eval

variable {α β : Type} {x : Eval α} {m m' : Machine}

theorem bind_eq (x : Eval α) (f : α → Eval β) (m : Machine) :
    (x >>= f) m = match x m with
      | .ok a m' => f a m'
      | .error s m' => .error s m' := by
  change EStateM.bind x f m = _
  unfold EStateM.bind
  cases x m <;> rfl

theorem final_bind (x : Eval α) (f : α → Eval β) (m : Machine) :
    (x >>= f).final m = match x m with
      | .ok a m' => (f a).final m'
      | .error _ m' => m' := by
  unfold final
  rw [bind_eq]
  cases x m <;> rfl

theorem final_of_ok {a : α} (h : x m = .ok a m') : x.final m = m' := by
  rw [final, h]

theorem final_of_error {s : Signal} (h : x m = .error s m') : x.final m = m' := by
  rw [final, h]

/-- A result that is given at the end changes nothing. -/
theorem final_bind_pure (x : Eval α) (b : β) (m : Machine) :
    (x >>= fun _ => pure b).final m = x.final m := by
  rw [final_bind]
  unfold final
  cases x m <;> rfl

theorem final_located (span : Option Span) (x : Eval α) (m : Machine) :
    (located span x).final m = x.final m := by
  unfold final located
  cases x m <;> rfl

theorem final_guarded (span : Option Span) (x : Eval Completion) (m : Machine) :
    (guarded span x).final m = x.final m := by
  unfold final guarded
  cases x m with
  | ok c m' => rfl
  | error s m' => cases h : s.toThrown? span <;> simp [h]

theorem final_withCallDepth (x : Eval α) (m : Machine) :
    (withCallDepth x).final m = (x.final (m.atDepth (m.callDepth + 1))).atDepth
      ((x.final (m.atDepth (m.callDepth + 1))).callDepth - 1) := by
  unfold final withCallDepth
  change (match (match x (m.atDepth (m.callDepth + 1)) with
    | .ok a m' => .ok a { m' with callDepth := m'.callDepth - 1 }
    | .error s m' => .error s { m' with callDepth := m'.callDepth - 1 } :
      EStateM.Result Signal Machine α) with
    | .ok _ m' => m'
    | .error _ m' => m') = _
  cases x (m.atDepth (m.callDepth + 1)) <;> rfl

/-! ### Broken off -/

variable {y : Eval α} {message : String}

theorem bind_failure {f : α → Eval β} (h : x m = .error (.failure message) m') :
    (x >>= f) m = .error (.failure message) m' := by
  rw [bind_eq, h]

theorem located_failure (span : Option Span) (h : x m = .error (.failure message) m') :
    located span x m = .error (.failure message) m' := by
  unfold located
  rw [h]
  rfl

theorem located_congr (span : Option Span) (h : x m = y m) :
    located span x m = located span y m := by
  unfold located
  rw [h]

theorem guarded_failure {x : Eval Completion} (span : Option Span)
    (h : x m = .error (.failure message) m') :
    guarded span x m = .error (.failure message) m' := by
  unfold guarded
  rw [h]
  rfl

theorem guarded_congr {x y : Eval Completion} (span : Option Span) (h : x m = y m) :
    guarded span x m = guarded span y m := by
  unfold guarded
  rw [h]

theorem withCallDepth_failure
    (h : x (m.atDepth (m.callDepth + 1)) = .error (.failure message) m') :
    withCallDepth x m = .error (.failure message) (m'.atDepth (m'.callDepth - 1)) := by
  unfold Machine.atDepth at h
  unfold withCallDepth
  rw [h]
  rfl

theorem withCallDepth_congr
    (h : x (m.atDepth (m.callDepth + 1)) = y (m.atDepth (m.callDepth + 1))) :
    withCallDepth x m = withCallDepth y m := by
  unfold Machine.atDepth at h
  unfold withCallDepth
  rw [h]

theorem failure_of_located {span : Option Span}
    (h : located span x m = .error (.failure message) m') : x m = .error (.failure message) m' := by
  unfold located at h
  cases hx : x m with
  | ok a m'' =>
    rw [hx] at h
    cases h
  | error s m'' =>
    rw [hx] at h
    cases s <;> cases h
    rfl

theorem failure_of_guarded {x : Eval Completion} {span : Option Span}
    (h : guarded span x m = .error (.failure message) m') : x m = .error (.failure message) m' := by
  unfold guarded at h
  cases hx : x m with
  | ok c m'' =>
    rw [hx] at h
    cases h
  | error s m'' =>
    rw [hx] at h
    cases s <;> cases h
    rfl

theorem failure_of_withCallDepth (h : withCallDepth x m = .error (.failure message) m') :
    ∃ m'', x (m.atDepth (m.callDepth + 1)) = .error (.failure message) m'' := by
  unfold Machine.atDepth
  unfold withCallDepth at h
  cases hx : x { m with callDepth := m.callDepth + 1 } with
  | ok a m'' =>
    rw [hx] at h
    cases h
  | error s m'' =>
    rw [hx] at h
    cases h
    exact ⟨m'', rfl⟩

end Eval

/-! ## What is needed -/

namespace Scripted

variable {D : Discipline} {Asks : Task → Prop} {α β : Type} {f : Worker → Eval α}
  {inner other : Worker} {m k : Machine} {t : Task}

/-- A worker that breaks off at one task differs there only. -/
theorem eq_of_interrupt_ne {message : String} {u : Task} {l : Machine}
    (h : inner.interrupt t k message u l ≠ inner u l) : u = t ∧ l = k :=
  Classical.byContradiction fun hOther => h (Worker.interrupt_other hOther)

/-- A part that a second computation needs is needed by both together: if the first one does not
need it already, it gives the same result without it. -/
theorem breaksAt_bind_of_after {g : α → Worker → Eval β} {a : α} {m' : Machine}
    (hFirst : ∀ {other : Worker}, f other m ≠ f inner m →
      ∃ t k, other t k ≠ inner t k ∧ BreaksAt f inner m t k)
    (hf : f inner m = .ok a m') (hAfter : BreaksAt (g a) inner m' t k) :
    BreaksAt (fun inner => f inner >>= (g · inner)) inner m t k := by
  intro message
  by_cases hBefore : ∃ message, f (inner.interrupt t k message) m ≠ f inner m
  · obtain ⟨message', hBefore⟩ := hBefore
    obtain ⟨t', k', hDiffers, hBreaks⟩ := hFirst hBefore
    obtain ⟨rfl, rfl⟩ := eq_of_interrupt_ne hDiffers
    exact (hBreaks message).imp fun _ => Eval.bind_failure
  · have hSame : f (inner.interrupt t k message) m = f inner m :=
      Classical.byContradiction fun h => hBefore ⟨message, h⟩
    obtain ⟨m'', hEnd⟩ := hAfter message
    refine ⟨m'', ?_⟩
    change (f (inner.interrupt t k message) >>= (g · (inner.interrupt t k message))) m = _
    rw [Eval.bind_eq, hSame, hf]
    exact hEnd

/-- Two workers that lead apart differ on a part that is needed. -/
theorem breaksAt_of_ne (h : Scripted D Asks f) (hne : f other m ≠ f inner m) :
    ∃ t k, other t k ≠ inner t k ∧ BreaksAt f inner m t k := by
  induction h generalizing other m with
  | own => exact absurd rfl hne
  | @ask t =>
    exact ⟨t, m, hne, fun message => ⟨m, Worker.interrupt_self inner t m message⟩⟩
  | @bind _ _ f g first after ihFirst ihAfter =>
    have hApart : (f other >>= (g · other)) m ≠ (f inner >>= (g · inner)) m := hne
    by_cases hFirst : f other m = f inner m
    · rw [Eval.bind_eq, Eval.bind_eq, hFirst] at hApart
      cases hf : f inner m with
      | error s m' =>
        rw [hf] at hApart
        exact absurd rfl hApart
      | ok a m' =>
        rw [hf] at hApart
        obtain ⟨t, k, hDiffers, hBreaks⟩ := ihAfter a hApart
        exact ⟨t, k, hDiffers, breaksAt_bind_of_after ihFirst hf hBreaks⟩
    · obtain ⟨t, k, hDiffers, hBreaks⟩ := ihFirst hFirst
      exact ⟨t, k, hDiffers, fun message => (hBreaks message).imp fun _ => Eval.bind_failure⟩
  | located span inside ih =>
    obtain ⟨t, k, hDiffers, hBreaks⟩ := ih fun h => hne (Eval.located_congr span h)
    exact ⟨t, k, hDiffers, fun message =>
      (hBreaks message).imp fun _ => Eval.located_failure span⟩
  | guarded span inside ih =>
    obtain ⟨t, k, hDiffers, hBreaks⟩ := ih fun h => hne (Eval.guarded_congr span h)
    exact ⟨t, k, hDiffers, fun message =>
      (hBreaks message).imp fun _ => Eval.guarded_failure span⟩
  | deeper inside ih =>
    obtain ⟨t, k, hDiffers, hBreaks⟩ := ih fun h => hne (Eval.withCallDepth_congr h)
    refine ⟨t, k, hDiffers, fun message => ?_⟩
    obtain ⟨m', hEnd⟩ := hBreaks message
    exact ⟨_, Eval.withCallDepth_failure hEnd⟩

/-- A part that is not needed makes no difference. -/
theorem eq_of_not_breaksAt (h : Scripted D Asks f) (hNot : ¬BreaksAt f inner m t k)
    (message : String) : f (inner.interrupt t k message) m = f inner m := by
  refine Classical.byContradiction fun hne => ?_
  obtain ⟨t', k', hDiffers, hBreaks⟩ := h.breaksAt_of_ne hne
  obtain ⟨rfl, rfl⟩ := eq_of_interrupt_ne hDiffers
  exact hNot hBreaks

end Scripted

/-! ## Where a part is needed -/

namespace BreaksAt

variable {α β : Type} {f : Worker → Eval α} {inner : Worker} {m k : Machine} {t : Task}

/-- What ends in one way does not break off. -/
theorem not_of_const {r : EStateM.Result Signal Machine α}
    (h : ∀ message, f (inner.interrupt t k message) m = r) : ¬BreaksAt f inner m t k := by
  intro hBreaks
  obtain ⟨m₁, h₁⟩ := hBreaks ""
  obtain ⟨m₂, h₂⟩ := hBreaks "?"
  rw [h] at h₁ h₂
  exact absurd (h₁.symm.trans h₂) (by simp)

theorem eq_of_ask {u : Task} (h : BreaksAt (fun inner => inner u) inner m t k) :
    t = u ∧ k = m := by
  refine Classical.byContradiction fun hOther => ?_
  refine not_of_const (r := inner u m) (fun message => ?_) h
  exact Worker.interrupt_other fun hSame => hOther ⟨hSame.1.symm, hSame.2.symm⟩

/-- A part that is needed by one computation after another is needed by the first, or else by
the second once the first is over. -/
theorem of_bind {D : Discipline} {Asks : Task → Prop} {g : α → Worker → Eval β}
    (first : Scripted D Asks f)
    (h : BreaksAt (fun inner => f inner >>= (g · inner)) inner m t k) :
    BreaksAt f inner m t k ∨
      (∀ message, f (inner.interrupt t k message) m = f inner m) ∧
        ∃ a m', f inner m = .ok a m' ∧ BreaksAt (g a) inner m' t k := by
  by_cases hFirst : BreaksAt f inner m t k
  · exact .inl hFirst
  have hSame := fun message => first.eq_of_not_breaksAt hFirst message
  refine .inr ⟨hSame, ?_⟩
  have hBreaks : ∀ message, ∃ m', (f (inner.interrupt t k message) >>=
      (g · (inner.interrupt t k message))) m = .error (.failure message) m' := h
  simp only [Eval.bind_eq, hSame] at hBreaks
  cases hf : f inner m with
  | error s m' =>
    simp only [hf] at hBreaks
    obtain ⟨m₁, h₁⟩ := hBreaks ""
    obtain ⟨m₂, h₂⟩ := hBreaks "?"
    exact absurd (h₁.symm.trans h₂) (by simp)
  | ok a m' =>
    simp only [hf] at hBreaks
    exact ⟨a, m', rfl, hBreaks⟩

theorem of_located {span : Option Span}
    (h : BreaksAt (fun inner => Eval.located span (f inner)) inner m t k) :
    BreaksAt f inner m t k := by
  intro message
  obtain ⟨m', hEnd⟩ := h message
  exact ⟨m', Eval.failure_of_located hEnd⟩

theorem of_guarded {f : Worker → Eval Completion} {span : Option Span}
    (h : BreaksAt (fun inner => Eval.guarded span (f inner)) inner m t k) :
    BreaksAt f inner m t k := by
  intro message
  obtain ⟨m', hEnd⟩ := h message
  exact ⟨m', Eval.failure_of_guarded hEnd⟩

theorem of_withCallDepth
    (h : BreaksAt (fun inner => Eval.withCallDepth (f inner)) inner m t k) :
    BreaksAt f inner (m.atDepth (m.callDepth + 1)) t k := by
  intro message
  obtain ⟨m', hEnd⟩ := h message
  exact Eval.failure_of_withCallDepth hEnd

end BreaksAt

theorem needs_of_breaksAt {cfg : Settings} {inner : Worker} {t u : Task} {m k : Machine}
    (h : BreaksAt (fun inner => step cfg inner t) inner m u k) : Needs cfg inner t m u k := by
  refine Classical.byContradiction fun hNot => ?_
  refine BreaksAt.not_of_const (r := step cfg inner t m) (fun message => ?_) h
  refine Classical.byContradiction fun hDiffers => hNot ?_
  exact ⟨inner.interrupt u k message, fun _ _ => Worker.interrupt_other, hDiffers⟩

/-! ## What is kept -/

/-- What the operations and the parts of a computation keep is kept. -/
theorem Scripted.final {D : Discipline} {cfg : Settings} {Asks : Task → Prop} {α : Type}
    {f : Worker → Eval α} {inner : Worker} (L : D.Lawful cfg) (hLevel : D.Level)
    (h : Scripted D Asks f)
    (hInner : ∀ t, Asks t → ∀ m, D.Inv m → D.Next m ((inner t).final m)) {m : Machine}
    (hInv : D.Inv m) : D.Next m ((f inner).final m) := by
  induction h generalizing m with
  | own allowed => exact allowed m hInv
  | ask asks => exact hInner _ asks m hInv
  | @bind _ _ f g first after ihFirst ihAfter =>
    have hFirst := ihFirst hInv
    rw [Eval.final_bind]
    cases hf : f inner m with
    | error s m' =>
      rw [Eval.final_of_error hf] at hFirst
      exact hFirst
    | ok a m' =>
      rw [Eval.final_of_ok hf] at hFirst
      have hAfter := ihAfter a hFirst.1
      exact ⟨hAfter.1, L.trans hFirst.2 hAfter.2⟩
  | located span inside ih =>
    rw [Eval.final_located]
    exact ih hInv
  | guarded span inside ih =>
    rw [Eval.final_guarded]
    exact ih hInv
  | deeper inside ih =>
    rw [Eval.final_withCallDepth]
    exact hLevel.next _ _ (ih (hLevel.inv _ hInv))

/-! ## Expressions -/

/-- Conditions that the worker has no part in. -/
theorem Scripted.ite {D : Discipline} {Asks : Task → Prop} {α : Type} {c : Prop} [Decidable c]
    {f g : Worker → Eval α} (hf : c → Scripted D Asks f) (hg : ¬c → Scripted D Asks g) :
    Scripted D Asks fun inner => if c then f inner else g inner := by
  by_cases h : c
  · simp only [if_pos h]
    exact hf h
  · simp only [if_neg h]
    exact hg h

/-- What asks for less asks for no more. -/
theorem Scripted.mono {D : Discipline} {Asks Asks' : Task → Prop} {α : Type}
    {f : Worker → Eval α} (h : Scripted D Asks f) (hAsks : ∀ t, Asks t → Asks' t) :
    Scripted D Asks' f := by
  induction h with
  | own allowed => exact .own allowed
  | ask asks => exact .ask (hAsks _ asks)
  | bind _ _ ihFirst ihAfter => exact .bind ihFirst ihAfter
  | located span _ ih => exact .located span ih
  | guarded span _ ih => exact .guarded span ih
  | deeper _ ih => exact .deeper ih

/-- The tasks that an expression may need. -/
def Task.OfExpr : Task → Prop
  | .evaluate .. | .evaluateAll .. | .apply .. => True
  | _ => False

namespace Discipline

/-- The discipline admits every value and every assignment, wherever it takes effect. -/
structure Loose (D : Discipline) : Prop where
  val : ∀ h v, D.Val h v
  assign : ∀ {m env name v s}, D.Inv m → m.heap.assignTarget env name = .ok s →
    D.Next m (m.withHeap (m.heap.bind s name ⟨v, false⟩))

variable {D : Discipline} {cfg : Settings} {Asks : Task → Prop} {α β : Type}

/-- Where every value and every failure may occur, it is enough to look at the machine that is left
behind. -/
theorem holds_of_next (hVal : ∀ h v, D.Val h v) (hFail : ∀ message, D.MayFail message)
    {x : Eval α} {Q : Machine → α → Prop} {m : Machine} (hQ : ∀ m' a, Q m' a)
    (hNext : D.Next m (x.final m)) : D.Holds m m x Q := by
  refine ⟨rfl, ?_⟩
  unfold Eval.final at hNext
  cases hx : x m with
  | ok a m' =>
    rw [hx] at hNext
    exact ⟨hNext, hQ m' a⟩
  | error s m' =>
    rw [hx] at hNext
    refine ⟨hNext, ?_⟩
    cases s with
    | thrown t => exact hVal _ _
    | failure message => exact hFail message
    | _ => trivial

theorem ends_of_val (hVal : ∀ h v, D.Val h v) (h : Heap) (c : Completion) : D.Ends h c := by
  cases c with
  | ret | throw => exact hVal _ _
  | _ => trivial

theorem yields_of_val (hVal : ∀ h v, D.Val h v) (h : Heap) (t : Task) (r : t.Result) :
    D.Yields h t r := by
  cases t with
  | evaluate | apply | applyFunc => exact hVal _ _
  | evaluateAll => exact fun _ _ => hVal _ _
  | _ => exact ends_of_val hVal h r

section

variable (L : D.Lawful cfg)
include L

/-- A computation that leaves the machine as it was. -/
theorem Lawful.scripted_still {x : Eval α} (h : ∀ m, x.final m = m) :
    Scripted D Asks fun _ => x :=
  .own fun m hInv => by
    rw [h]
    exact L.here hInv

theorem Lawful.scripted_pure (a : α) : Scripted D Asks fun _ => (pure a : Eval α) :=
  L.scripted_still fun _ => rfl

theorem Lawful.scripted_throw (s : Signal) : Scripted D Asks fun _ => (throw s : Eval α) :=
  L.scripted_still fun _ => rfl

theorem Lawful.scripted_fault (f : Fault) : Scripted D Asks fun _ => (Eval.fault f : Eval α) :=
  L.scripted_throw _

theorem Lawful.scripted_consult (f : Heap → Except Fault α) :
    Scripted D Asks fun _ => Eval.consult f :=
  L.scripted_still fun m => by
    unfold Eval.final Eval.consult
    cases f m.heap <;> rfl

theorem Lawful.scripted_lookup (env : Env) (name : String) :
    Scripted D Asks fun _ => Eval.lookup env name :=
  L.scripted_consult _

theorem Lawful.scripted_superMethod (env : Env) (name : String) :
    Scripted D Asks fun _ => Eval.superMethod env name := by
  refine .bind (L.scripted_lookup env "super") fun parent => ?_
  refine .bind (L.scripted_lookup env "this") fun self => ?_
  split
  · split
    · exact L.scripted_pure _
    · exact L.scripted_fault _
  · exact L.scripted_fault _

/-- An operation whose arguments are values that may occur. -/
theorem Lawful.scripted_op {x : Eval α} {Q : Machine → Machine → α → Prop}
    (h : ∀ m, D.Next m m → D.Holds m m x (Q m)) : Scripted D Asks fun _ => x :=
  .own fun m hInv => (h m (L.here hInv)).next

variable (hLoose : D.Loose)
include hLoose

theorem Lawful.scripted_assign (env : Env) (name : String) (v : Value) :
    Scripted D Asks fun _ => Eval.assign env name v := by
  refine .own fun m hInv => ?_
  unfold Eval.assign
  rw [Eval.final, Eval.consult_bind]
  cases hTarget : m.heap.assignTarget env name with
  | error e => exact L.here hInv
  | ok s => exact hLoose.assign hInv hTarget

theorem Lawful.scripted_newArray (vs : List Value) :
    Scripted D Asks fun _ => Eval.alloc (·.newArray vs.toArray) :=
  .own fun _ hInv => (L.newArray hInv fun _ _ => hLoose.val _ _).1

theorem Lawful.scripted_setField (id : ObjectId) (name : String) (v : Value) :
    Scripted D Asks fun _ => Eval.update (·.setField id name v) :=
  .own fun _ hInv => L.setField hInv (hLoose.val _ _) (hLoose.val _ _)

theorem Lawful.scripted_setElement (id : ArrayId) (i : Nat) (v : Value) :
    Scripted D Asks fun _ => Eval.update (·.setElement id i v) :=
  .own fun _ hInv => L.setElement hInv (hLoose.val _ _) (hLoose.val _ _)

theorem Lawful.scripted_expr (depth : Nat) (env : Env) (e : Expr) :
    Scripted D Task.OfExpr fun inner => Step.expr cfg inner depth env e := by
  cases e with
  | string | boolean | null => exact L.scripted_pure _
  | number => exact L.scripted_op fun m hm => L.holds_number hm _
  | array es s =>
    refine .bind (.ask trivial) fun vs => ?_
    exact .bind (L.scripted_newArray hLoose vs) fun id => L.scripted_pure _
  | name | this => exact L.scripted_lookup _ _
  | super => exact L.scripted_superMethod _ _
  | unary op e s =>
    exact .bind (.ask trivial) fun v => L.scripted_op fun m hm => L.holds_unary hm op v
  | binary op l r s =>
    refine .bind (.ask trivial) fun a => .bind (.ask trivial) fun b => ?_
    exact L.scripted_op fun m hm => L.holds_binary hm _ op a b
  | logical op l r s =>
    refine .bind (.ask trivial) fun a => ?_
    split
    · exact L.scripted_pure _
    · exact L.scripted_pure _
    · exact .bind (.ask trivial) fun b => L.scripted_pure _
  | call f args s =>
    have hPlain : Scripted D Task.OfExpr (fun inner => do
        let callee ← inner (.evaluate (depth + 1) env f)
        let vs ← inner (.evaluateAll (depth + 1) env args)
        inner (.apply (depth + 1) callee vs)) :=
      .bind (.ask trivial) fun callee => .bind (.ask trivial) fun vs => .ask trivial
    cases f with
    | member o id s =>
      refine .bind (.ask trivial) fun object => ?_
      refine .bind (L.scripted_op fun m hm => L.holds_memberForCall hm (hLoose.val _ _) _) ?_
      exact fun callee => .bind (.ask trivial) fun vs => .ask trivial
    | _ => exact hPlain
  | member o id s =>
    refine .bind (.ask trivial) fun object => ?_
    exact L.scripted_op fun m hm => L.holds_readMember hm (hLoose.val _ _) _
  | setMember o id v s =>
    refine .bind (.ask trivial) fun object => ?_
    refine .bind (L.scripted_op fun m hm => holds_memberTarget hm (hLoose.val _ _) _) fun i => ?_
    refine .bind (.ask trivial) fun value => ?_
    exact .bind (L.scripted_setField hLoose i _ value) fun _ => L.scripted_pure _
  | index o i s =>
    refine .bind (.ask trivial) fun object => .bind (.ask trivial) fun index => ?_
    exact L.scripted_op fun m hm => L.holds_readIndex hm (hLoose.val _ _) _
  | setIndex o i v s =>
    refine .bind (.ask trivial) fun object => .bind (.ask trivial) fun index => ?_
    refine .bind (L.scripted_op fun m hm => holds_indexTarget hm (hLoose.val _ _) _) ?_
    rintro ⟨id, position⟩
    refine .bind (.ask trivial) fun value => ?_
    exact .bind (L.scripted_setElement hLoose id position value) fun _ => L.scripted_pure _
  | assign t v s =>
    refine .bind (.ask trivial) fun value => ?_
    exact .bind (L.scripted_assign hLoose env t.name value) fun _ => L.scripted_pure _

theorem Lawful.scripted_evaluate (depth : Nat) (env : Env) (e : Expr) :
    Scripted D Task.OfExpr fun inner => step cfg inner (.evaluate depth env e) :=
  .ite (fun _ => L.scripted_throw _) fun _ => .located _ (L.scripted_expr hLoose depth env e)

omit hLoose in
theorem Lawful.scripted_evaluateAll (depth : Nat) (env : Env) (es : List Expr) :
    Scripted D Task.OfExpr fun inner => step cfg inner (.evaluateAll depth env es) := by
  cases es with
  | nil => exact L.scripted_pure _
  | cons e rest =>
    exact .bind (.ask trivial) fun v => .bind (.ask trivial) fun vs => L.scripted_pure _

/-- Expressions keep a loose discipline in every environment. -/
theorem Lawful.next_ofExpr (hLevel : D.Level) (fuel : Nat) {t : Task} (ht : t.OfExpr)
    {m : Machine} (hInv : D.Inv m) : D.Next m ((run cfg fuel t).final m) := by
  induction fuel generalizing t m with
  | zero => exact L.here hInv
  | succ fuel ih =>
    have hParts : ∀ t, Task.OfExpr t → ∀ m, D.Inv m → D.Next m ((run cfg fuel t).final m) :=
      fun _ ht _ hInv => ih ht hInv
    cases t with
    | evaluate depth env e =>
      exact (L.scripted_evaluate hLoose depth env e).final L hLevel hParts hInv
    | evaluateAll depth env es =>
      exact (L.scripted_evaluateAll depth env es).final L hLevel hParts hInv
    | apply depth callee args =>
      exact L.next_run (fuel + 1) hInv ⟨hLoose.val _ _, fun _ _ => hLoose.val _ _⟩
    | _ => exact absurd ht id

end

end Discipline

/-! ## Steps -/

namespace Discipline

variable {cfg : Settings} {Grows : Machine → Machine → Prop}

/-- Tasks of every kind. -/
abbrev anyTask : Task → Prop := fun _ => True

section

variable (L : (ofOrder Grows).Lawful cfg)
include L

theorem Lawful.ofOrder_loose : (ofOrder Grows).Loose where
  val _ _ := trivial
  assign {m env name _ _} hInv hTarget :=
    L.assign hInv (ofOrder_at m.heap env) (ofOrder_code (.ident ⟨name, none⟩)) trivial hTarget

theorem Lawful.grows_run (fuel : Nat) (t : Task) (m : Machine) :
    Grows m ((run cfg fuel t).final m) :=
  (L.next_run fuel trivial (ofOrder_fits _ t)).2

theorem Lawful.scripted_enter (env : Env) (names : Scope) :
    Scripted (ofOrder Grows) anyTask fun _ => Eval.enter env names :=
  L.scripted_op fun m hm => L.holds_enter hm .top (ofOrder_at m.heap env) fun b _ =>
    ⟨⟨⟨b.1, none⟩, rfl, trivial⟩, trivial⟩

theorem Lawful.scripted_declare (env : Env) (name : String) (v : Value) (constant : Bool) :
    Scripted (ofOrder Grows) anyTask fun _ => Eval.declare env name v constant :=
  L.scripted_op fun m hm => L.holds_declare hm (ofOrder_at m.heap env)
    (ofOrder_code (.ident ⟨name, none⟩)) trivial constant

theorem Lawful.scripted_display (depth : Nat) (v : Value) :
    Scripted (ofOrder Grows) anyTask fun _ => Eval.display cfg depth v :=
  L.scripted_op fun _ hm => holds_display hm depth v

theorem Lawful.scripted_debug (message : String) :
    Scripted (ofOrder Grows) anyTask fun _ => Eval.debug cfg message :=
  L.scripted_op fun _ hm => L.holds_debug hm.1 message

theorem Lawful.scripted_defineFunc (env : Env) (f : FuncDef) :
    Scripted (ofOrder Grows) anyTask fun _ => Eval.defineFunc env f :=
  L.scripted_op fun m hm => L.holds_defineFunc hm (ofOrder_at m.heap env)
    (ofOrder_code (.stmt (.func f)))

theorem Lawful.scripted_defineClass (env : Env) (c : ClassDef) :
    Scripted (ofOrder Grows) anyTask fun _ => Eval.defineClass env c :=
  L.scripted_op fun m hm => holds_defineClass
    (L.defineClass hm.1 (ofOrder_at m.heap env) (ofOrder_code (.stmt (.cls c))))

theorem Lawful.scripted_enterCall (closure : Closure) (self : Option ObjectId)
    (args : List Value) :
    Scripted (ofOrder Grows) anyTask fun _ => Eval.enterCall closure self args := by
  cases self with
  | none => exact .bind (L.scripted_pure _) fun env => L.scripted_enter env _
  | some id => exact .bind (L.scripted_enter _ _) fun env => L.scripted_enter env _

theorem Lawful.scripted_checkCall (f : FuncDef) (received : Nat) :
    Scripted (ofOrder Grows) anyTask fun _ => Eval.checkCall cfg f received :=
  L.scripted_op fun _ hm => holds_checkCall hm f received

theorem Lawful.scripted_callResult (initializer : Bool) (c : Completion) :
    Scripted (ofOrder Grows) anyTask fun _ => Eval.callResult initializer c := by
  cases c with
  | throw t => exact L.scripted_throw _
  | _ => exact L.scripted_pure _

theorem Lawful.scripted_applyFunc (depth : Nat) (id : FuncId) (self : Option ObjectId)
    (args : List Value) :
    Scripted (ofOrder Grows) anyTask fun inner =>
      step cfg inner (.applyFunc depth id self args) := by
  refine .bind (L.scripted_op fun _ hm => holds_heap hm) fun h => ?_
  refine .bind (L.scripted_checkCall _ _) fun _ => ?_
  refine .bind (L.scripted_enterCall _ _ _) fun env => ?_
  exact .bind (.deeper (.ask trivial)) fun c => L.scripted_callResult _ c

/-- A function of the host does operations of its own, one after another, and calls values back. -/
theorem Lawful.scripted_routine (depth : Nat) (r : Routine) :
    Scripted (ofOrder Grows) anyTask fun inner =>
      Eval.routine cfg (fun callee args => inner (.apply (depth + 1) callee args)) depth r := by
  induction r with
  | reply r =>
    exact L.scripted_op fun _ hm => L.holds_reply hm (fun _ _ => trivial) fun _ => trivial
  | ask q next ih =>
    refine .bind (L.scripted_op fun _ hm => L.holds_request hm depth q fun _ _ => trivial) ?_
    exact fun answer => ih answer
  | call callee args next ih => exact .bind (.ask trivial) fun v => ih v

theorem Lawful.scripted_runNative (depth : Nat) (f : Native) (args : List Value) :
    Scripted (ofOrder Grows) anyTask fun inner =>
      Eval.runNative cfg (fun callee args => inner (.apply (depth + 1) callee args)) depth f
        args := by
  cases f with
  | foreign name arity => exact L.scripted_routine depth (cfg.host name args)
  | print =>
    refine .bind (L.scripted_op fun _ hm => holds_displayAll hm depth args) fun texts => ?_
    exact .bind (L.scripted_op fun _ hm => L.holds_write hm _) fun _ => L.scripted_pure _
  | input =>
    refine .bind (L.scripted_display depth _) fun text => ?_
    refine .bind (L.scripted_op fun _ hm => L.holds_write hm _) fun _ => ?_
    exact .bind (L.scripted_op fun _ hm => L.holds_readLine hm) fun line => L.scripted_pure _
  | type => exact L.scripted_pure _
  | str => exact .bind (L.scripted_display depth _) fun text => L.scripted_pure _
  | num => exact L.scripted_op fun _ hm => L.holds_toNumber hm trivial
  | len => exact L.scripted_op fun _ hm => L.holds_length hm _

theorem Lawful.scripted_callNative (depth : Nat) (f : Native) (args : List Value) :
    Scripted (ofOrder Grows) anyTask fun inner =>
      Eval.callNative cfg (fun callee args => inner (.apply (depth + 1) callee args)) depth f
        args := by
  unfold Eval.callNative
  cases f.arity with
  | none => exact L.scripted_runNative depth f args
  | some n => exact .ite (fun _ => L.scripted_runNative depth f args) fun _ => L.scripted_fault _

theorem Lawful.scripted_apply (depth : Nat) (callee : Value) (args : List Value) :
    Scripted (ofOrder Grows) anyTask fun inner => step cfg inner (.apply depth callee args) := by
  cases callee with
  | func id | bound id self => exact .ask trivial
  | native f => exact L.scripted_callNative depth f args
  | cls c =>
    have hNew : Scripted (ofOrder Grows) anyTask fun _ => Eval.alloc (·.newObject ⟨c, []⟩) :=
      .own fun _ hInv => (L.newObject hInv trivial).1
    refine .bind hNew fun id => ?_
    cases c.findMethod? Eval.initializerName with
    | some f => exact .bind (.ask trivial) fun _ => L.scripted_pure _
    | none => exact .ite (fun _ => L.scripted_pure _) fun _ => L.scripted_fault _
  | _ => exact L.scripted_fault _

/-- A block in a scope of its own. -/
theorem Lawful.scripted_block (depth : Nat) (env : Env) (names : Scope) (body : List Stmt) :
    Scripted (ofOrder Grows) anyTask (fun inner => do
      let env ← Eval.enter env names
      inner (.executeAll depth env body)) :=
  .bind (L.scripted_enter env names) fun _ => .ask trivial

theorem Lawful.scripted_stmt (depth : Nat) (env : Env) (s : Stmt) :
    Scripted (ofOrder Grows) anyTask fun inner => Step.stmt cfg inner depth env s := by
  cases s with
  | simple s => exact .ask trivial
  | func f => exact .bind (L.scripted_defineFunc env f) fun _ => L.scripted_pure _
  | cls c => exact .bind (L.scripted_defineClass env c) fun _ => L.scripted_pure _
  | block b => exact L.scripted_block _ env [] b.body
  | ifElse condition body elifs otherwise span =>
    refine .bind (.ask trivial) fun v => ?_
    exact .ite (fun _ => L.scripted_block _ env [] body.body) fun _ => .ask trivial
  | whileLoop => exact .ask trivial
  | forLoop start condition update body span =>
    refine .bind (L.scripted_enter env []) fun loopEnv => ?_
    cases start with
    | none => exact .ask trivial
    | some start =>
      refine .bind (.ask trivial) fun c => ?_
      cases c with
      | normal => exact .ask trivial
      | _ => exact L.scripted_pure _
  | breakLoop | continueLoop => exact L.scripted_pure _
  | ret value =>
    cases value with
    | none => exact L.scripted_pure _
    | some e => exact .bind (.ask trivial) fun v => L.scripted_pure _
  | tryCatch body param handler span =>
    refine .bind (L.scripted_enter env []) fun tryEnv => .bind (.ask trivial) fun c => ?_
    cases c with
    | throw t =>
      refine .bind (L.scripted_display _ _) fun text => .bind (L.scripted_debug _) fun _ => ?_
      exact L.scripted_block _ env _ handler.body
    | _ => exact L.scripted_pure _
  | throw => exact .bind (.ask trivial) fun v => L.scripted_pure _

theorem Lawful.scripted_executeSimple (depth : Nat) (env : Env) (s : Simple) :
    Scripted (ofOrder Grows) anyTask fun inner => step cfg inner (.executeSimple depth env s) := by
  cases s with
  | var id value span =>
    cases value with
    | none => exact .bind (L.scripted_declare env _ _ _) fun _ => L.scripted_pure _
    | some e =>
      refine .bind (.ask trivial) fun v => ?_
      exact .bind (L.scripted_declare env _ _ _) fun _ => L.scripted_pure _
  | const =>
    refine .bind (.ask trivial) fun v => ?_
    exact .bind (L.scripted_declare env _ _ _) fun _ => L.scripted_pure _
  | expr => exact .bind (.ask trivial) fun v => L.scripted_pure _

theorem Lawful.scripted_executeAll (depth : Nat) (env : Env) (body : List Stmt) :
    Scripted (ofOrder Grows) anyTask fun inner => step cfg inner (.executeAll depth env body) := by
  cases body with
  | nil => exact L.scripted_pure _
  | cons s rest =>
    refine .bind (.ask trivial) fun c => ?_
    cases c with
    | normal => exact .ask trivial
    | _ => exact L.scripted_pure _

theorem Lawful.scripted_executeElifs (depth : Nat) (env : Env) (clauses : List ElifClause)
    (otherwise : Option Block) :
    Scripted (ofOrder Grows) anyTask fun inner =>
      step cfg inner (.executeElifs depth env clauses otherwise) := by
  cases clauses with
  | nil =>
    cases otherwise with
    | none => exact L.scripted_pure _
    | some b => exact L.scripted_block _ env [] b.body
  | cons clause rest =>
    refine .bind (.ask trivial) fun v => ?_
    exact .ite (fun _ => L.scripted_block _ env [] clause.body.body) fun _ => .ask trivial

theorem Lawful.scripted_runWhile (depth : Nat) (env : Env) (condition : Expr) (body : Block) :
    Scripted (ofOrder Grows) anyTask fun inner =>
      step cfg inner (.runWhile depth env condition body) := by
  refine .bind (.ask trivial) fun v => .ite (fun _ => ?_) fun _ => L.scripted_pure _
  refine .bind (L.scripted_enter env []) fun bodyEnv => .bind (.ask trivial) fun c => ?_
  cases c with
  | breakLoop | ret | throw => exact L.scripted_pure _
  | normal | continueLoop => exact .ask trivial

theorem Lawful.scripted_runFor (depth : Nat) (env : Env) (condition update : Option Expr)
    (body : Block) :
    Scripted (ofOrder Grows) anyTask fun inner =>
      step cfg inner (.runFor depth env condition update body) := by
  have hCondition : Scripted (ofOrder Grows) anyTask fun inner =>
      Step.holds inner depth env condition := by
    cases condition with
    | none => exact L.scripted_pure _
    | some e => exact .bind (.ask trivial) fun v => L.scripted_pure _
  refine .bind hCondition fun b => .ite (fun _ => ?_) fun _ => L.scripted_pure _
  refine .bind (L.scripted_enter env []) fun bodyEnv => .bind (.ask trivial) fun c => ?_
  cases c with
  | breakLoop | ret | throw => exact L.scripted_pure _
  | normal | continueLoop =>
    cases update with
    | none => exact .ask trivial
    | some e => exact .bind (.ask trivial) fun v => .ask trivial

/-- Every step is scripted. -/
theorem Lawful.scripted_step (t : Task) :
    Scripted (ofOrder Grows) anyTask fun inner => step cfg inner t := by
  cases t with
  | evaluate depth env e =>
    exact (L.scripted_evaluate L.ofOrder_loose depth env e).mono fun _ _ => trivial
  | evaluateAll depth env es =>
    exact (L.scripted_evaluateAll depth env es).mono fun _ _ => trivial
  | apply depth callee args => exact L.scripted_apply depth callee args
  | applyFunc depth id self args => exact L.scripted_applyFunc depth id self args
  | execute depth env s =>
    exact .guarded _ (.ite (fun _ => L.scripted_throw _) fun _ => L.scripted_stmt depth env s)
  | executeSimple depth env s => exact L.scripted_executeSimple depth env s
  | executeAll depth env body => exact L.scripted_executeAll depth env body
  | executeElifs depth env clauses otherwise =>
    exact L.scripted_executeElifs depth env clauses otherwise
  | runWhile depth env condition body => exact L.scripted_runWhile depth env condition body
  | runFor depth env condition update body =>
    exact L.scripted_runFor depth env condition update body

end

end Discipline

/-- A step needs a part just where it breaks off with it. -/
theorem needs_iff {cfg : Settings} {inner : Worker} {t u : Task} {m k : Machine} :
    Needs cfg inner t m u k ↔ BreaksAt (fun inner => step cfg inner t) inner m u k := by
  refine ⟨fun h => ?_, needs_of_breaksAt⟩
  obtain ⟨other, hSame, hDiffers⟩ := h
  have hScript := (Discipline.unordered_lawful cfg).scripted_step t
  obtain ⟨u', k', hApart, hBreaks⟩ := hScript.breaksAt_of_ne hDiffers
  obtain ⟨rfl, rfl⟩ := Classical.byContradiction fun hOther => hApart (hSame u' k' hOther)
  exact hBreaks

end Tern
