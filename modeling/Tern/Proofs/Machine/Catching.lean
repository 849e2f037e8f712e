import Mathlib.Data.Finset.Card
import Tern.Proofs.Machine.Constants
import Tern.Proofs.Machine.Escape
import Tern.Proofs.Machine.Unwinding

/-!
# What `try` catches

The body of a `try` statement runs in a scope of its own. If it ends with a throw, however the
throw came up and through however many calls it went, the value goes to the handler, under the
name that the statement gives it and in another scope of its own, and the statement ends as the
handler does. If the body ends in any other way, so does the statement.

One thing can come in between. Before the handler runs, the value is written to the debug log,
whether or not anyone reads it. The text of an array that nests too deeply for the host cannot be
made, so such a value never gets to the handler: the statement ends with another throw, that of
the message of the host.

* `Heap.exists_display?`: a host that never runs out of room can show every value;
* `Caught`: the machine from which the handler runs;
* `execute_tryCatch`: how a `try` statement ends, and what it needs for it.
-/

namespace Tern

/-! ## Values that can be shown -/

namespace Heap

variable {h : Heap} {path : List ArrayId} {room : Nat} {v : Value}

theorem isSome_mapM {α β : Type} {f : α → Option β} {as : List α} (h : ∀ a ∈ as, (f a).isSome) :
    (as.mapM f).isSome := by
  induction as with
  | nil => rfl
  | cons a as ih =>
    obtain ⟨b, hb⟩ := Option.isSome_iff_exists.mp (h a List.mem_cons_self)
    obtain ⟨bs, hbs⟩ := Option.isSome_iff_exists.mp
      (ih fun a' ha' => h a' (List.mem_cons_of_mem _ ha'))
    rw [List.mapM_cons, hb, hbs]
    rfl

/-- The arrays that are not open. -/
def closed (h : Heap) (path : List ArrayId) : Finset ArrayId :=
  Finset.range h.arrays.size \ path.toFinset

theorem card_closed_cons_lt {i : ArrayId} (hi : i < h.arrays.size) (hNew : i ∉ path) :
    (h.closed (i :: path)).card < (h.closed path).card := by
  refine Finset.card_lt_card (Finset.ssubset_iff_of_subset ?_ |>.mpr ⟨i, ?_, ?_⟩)
  · exact Finset.sdiff_subset_sdiff (Finset.Subset.refl _) fun j hj =>
      List.mem_toFinset.mpr (List.mem_cons_of_mem _ (List.mem_toFinset.mp hj))
  · simp [closed, hi, hNew]
  · simp [closed]

/-- The arrays that are open at a time are different ones. -/
theorem displayIn_isSome (hRoom : (h.closed path).card < room) :
    (h.displayIn room path v).isSome := by
  induction room generalizing path v with
  | zero => omega
  | succ room ih =>
    cases v with
    | array i =>
      rw [displayIn]
      split
      · rfl
      · next hOpen =>
        have hNew : i ∉ path := by simpa using hOpen
        have hAll : ((h.elements i).toList.mapM (h.displayIn room (i :: path))).isSome := by
          by_cases hi : i < h.arrays.size
          · exact isSome_mapM fun w _ => ih (by have := card_closed_cons_lt hi hNew; omega)
          · have hEmpty : h.elements i = #[] := by
              simp [elements, Array.getD_eq_getD_getElem?, Nat.le_of_not_lt hi]
            rw [hEmpty]
            rfl
        obtain ⟨texts, hTexts⟩ := Option.isSome_iff_exists.mp hAll
        simp only [hTexts, Option.isSome_some]
    | _ => rfl

/-- Without a limit every value has a text. -/
theorem exists_display? (h : Heap) (v : Value) : ∃ text, h.display? none v = some text := by
  have hRoom : (h.closed []).card < h.unbounded := by
    simp [closed, unbounded]
  exact Option.isSome_iff_exists.mp (displayIn_isSome hRoom)

end Heap

/-! ## Scopes are numbered upwards -/

/-- There are never fewer scopes than before. -/
abbrev scopesKept : Discipline := .ofOrder fun m m' => m.heap.scopes.size ≤ m'.heap.scopes.size

theorem Heap.lasting_scopes : Heap.Lasting fun h h' => h.scopes.size ≤ h'.scopes.size where
  refl _ := Nat.le_refl _
  trans := Nat.le_trans
  countNan _ _ := Nat.le_refl _
  newArray _ _ := Nat.le_refl _
  newObject _ _ := Nat.le_refl _
  newScope h names := by simp [Heap.newScope]
  newClosure _ _ := Nat.le_refl _
  setField _ _ _ _ := Nat.le_refl _
  setElement _ _ _ _ := Nat.le_refl _
  declare _ _ := Nat.le_of_eq (Array.size_modify ..).symm
  assign _ _ := Nat.le_of_eq (Array.size_modify ..).symm
  withClass h _ _ parent := by
    change _ ≤ (h.scopes ++ Heap.superScope parent).size
    rw [size_append]
    exact Nat.le_add_right _ _

theorem scopesKept_lawful (cfg : Settings) : scopesKept.Lawful cfg :=
  Heap.lasting_scopes.lawful cfg

theorem scopes_le_of_run {cfg : Settings} {fuel : Nat} {t : Task} {m m' : Machine} {r : t.Result}
    (h : run cfg fuel t m = .ok r m') : m.heap.scopes.size ≤ m'.heap.scopes.size := by
  have hGrows := (scopesKept_lawful cfg).grows_run fuel t m
  rw [Eval.final_of_ok h] at hGrows
  exact hGrows

/-! ## The handler -/

/-- The machine from which the handler runs: a line has been written to the debug log, and a scope
been made in which the name stands for the value. -/
def Machine.caught (m : Machine) (cfg : Settings) (param : Ident) (v : Value) (text : String) :
    Machine :=
  let message := "caught " ++ text ++ " in '" ++ param.name ++ "'"
  Machine.withHeap { m with log := m.log ++ (cfg.logger.lines .debug message).toArray }
    (m.heap.newScope [(param.name, ⟨v, false⟩)]).2

section

variable {cfg : Settings} {fuel depth : Nat} {env : Env} {body handler : Block} {param : Ident}
  {span : Option Span} {m m₁ k : Machine} {inner : Worker} {t : Task} {thrown : Thrown}
  {text : String} {c : Completion}

/-- The scope of the handler is a new one, which has the name of the value and no other. -/
theorem scope_caught (m : Machine) (cfg : Settings) (param : Ident) (v : Value) (text : String) :
    (m.caught cfg param v text).heap.scope m.heap.scopes.size = [(param.name, ⟨v, false⟩)] := by
  simp [Machine.caught, Machine.withHeap, Heap.newScope, Heap.scope, Array.getD_eq_getD_getElem?]

namespace Step

theorem afterBody_shown
    (hText : m.heap.display? (cfg.room (depth + 1)) thrown.value = some text) :
    afterBody cfg depth env param handler (.throw thrown) inner m =
      inner (.inScope depth env m handler)
        (m.caught cfg param thrown.value text) := by
  change (Eval.display cfg (depth + 1) thrown.value >>= fun text =>
    Eval.debug cfg ("caught " ++ text ++ " in '" ++ param.name ++ "'") >>= fun _ =>
      Eval.enter env [(param.name, ⟨thrown.value, false⟩)] >>= fun catchEnv =>
        inner (.executeAll (depth + 1) catchEnv handler.body)) m = _
  rw [Eval.bind_eq, display_some hText]
  rfl

theorem afterBody_unshown
    (hText : m.heap.display? (cfg.room (depth + 1)) thrown.value = none) :
    afterBody cfg depth env param handler (.throw thrown) inner m =
      .error (.overflow overflowMessage) m := by
  change (Eval.display cfg (depth + 1) thrown.value >>= fun _ => _) m = _
  rw [Eval.bind_eq, display_none hText]

/-- What is needed after a body that threw is the handler, once the value has been shown. -/
theorem of_breaksAt_afterBody
    (h : BreaksAt (afterBody cfg depth env param handler (.throw thrown)) inner m t k) :
    ∃ text, m.heap.display? (cfg.room (depth + 1)) thrown.value = some text ∧
      t = .inScope depth env m handler ∧
      k = m.caught cfg param thrown.value text := by
  cases hText : m.heap.display? (cfg.room (depth + 1)) thrown.value with
  | none => exact absurd h (BreaksAt.not_of_const fun _ => afterBody_unshown hText)
  | some text =>
    have hHandler : BreaksAt (fun inner => inner (.inScope depth env m handler)) inner
        (m.caught cfg param thrown.value text) t k := by
      intro message
      obtain ⟨m', hEnd⟩ := h message
      rw [afterBody_shown hText] at hEnd
      exact ⟨m', hEnd⟩
    exact ⟨text, rfl, hHandler.eq_of_ask⟩

theorem not_breaksAt_afterBody (hNoThrow : ∀ thrown, c ≠ .throw thrown) :
    ¬BreaksAt (afterBody cfg depth env param handler c) inner m t k := by
  cases c with
  | throw thrown => exact absurd rfl (hNoThrow thrown)
  | _ => exact BreaksAt.not_of_const fun _ => rfl

theorem afterBody_of_no_throw (hNoThrow : ∀ thrown, c ≠ .throw thrown) :
    afterBody cfg depth env param handler c inner m = .ok c m := by
  cases c with
  | throw thrown => exact absurd rfl (hNoThrow thrown)
  | _ => rfl

end Step

/-! ## The statement -/

theorem Eval.guarded_of_final {x : Eval Completion}
    (hFinal : ∀ s m', x m = .error s m' → s.Final) : Eval.guarded span x m = x m := by
  unfold Eval.guarded
  cases hx : x m with
  | ok c m' => rfl
  | error s m' =>
    have hs := hFinal s m' hx
    cases s with
    | failure | exhausted => rfl
    | _ => exact absurd hs id

variable (hRoom : cfg.isFull depth = false)
include hRoom

/-- The body is needed, and nothing before it. -/
theorem needs_body_tryCatch : Needs cfg inner
    (.execute depth env (.tryCatch body param handler span)) m
    (.inScope depth env m body)
    m.entered := by
  refine needs_of_interrupt m.entered fun message => ?_
  rw [Step.step_tryCatch hRoom]
  refine Eval.guarded_failure _ (Eval.bind_failure ?_)
  exact Worker.interrupt_self ..

/-- The handler is needed after a body that threw a value that can be shown. Its scope is not the
one of the body, so that breaking it off does not touch the body. -/
theorem needs_handler
    (hBody : inner (.inScope depth env m body)
      m.entered = .ok (.throw thrown) m₁)
    (hScopes : m.heap.scopes.size < m₁.heap.scopes.size)
    (hText : m₁.heap.display? (cfg.room (depth + 1)) thrown.value = some text) :
    Needs cfg inner (.execute depth env (.tryCatch body param handler span)) m
      (.inScope depth env m₁ handler)
      (m₁.caught cfg param thrown.value text) := by
  refine needs_of_interrupt (m₁.caught cfg param thrown.value text) fun message => ?_
  rw [Step.step_tryCatch hRoom]
  refine Eval.guarded_failure _ ?_
  rw [Eval.bind_eq, Worker.interrupt_other, hBody]
  · dsimp only
    rw [Step.afterBody_shown hText]
    exact Worker.interrupt_self ..
  · rintro ⟨hTask, -⟩
    have hScope : m.heap.scopes.size = m₁.heap.scopes.size := by
      simpa [Env.extend] using (Task.executeAll.inj hTask).2.1
    omega

/-- Only the body is needed if nothing breaks off after it. -/
theorem needs_body_only
    (hBody : run cfg fuel (.inScope depth env m body) m.entered = .ok c m₁)
    (hNothing : ∀ t k,
      ¬BreaksAt (Step.afterBody cfg depth env param handler c) (run cfg fuel) m₁ t k)
    (t : Task) (k : Machine) :
    Needs cfg (run cfg fuel) (.execute depth env (.tryCatch body param handler span)) m t k ↔
      t = .inScope depth env m body ∧ k = m.entered := by
  constructor
  · intro hNeeds
    obtain ⟨-, hBefore | ⟨c', m', hBody', hAfter⟩⟩ := Step.of_needs_tryCatch hNeeds
    · exact hBefore
    · rw [hBody] at hBody'
      cases hBody'
      exact absurd hAfter (hNothing t k)
  · rintro ⟨rfl, rfl⟩
    exact needs_body_tryCatch hRoom

/-- The statement ends as the handler does if the body throws a value that can be shown. -/
theorem run_of_shown
    (hBody : run cfg fuel (.inScope depth env m body) m.entered = .ok (.throw thrown) m₁)
    (hText : m₁.heap.display? (cfg.room (depth + 1)) thrown.value = some text) :
    run cfg (fuel + 1) (.execute depth env (.tryCatch body param handler span)) m =
      run cfg fuel (.inScope depth env m₁ handler) (m₁.caught cfg param thrown.value text) := by
  have hInside : (run cfg fuel (.inScope depth env m body) >>= fun c =>
      Step.afterBody cfg depth env param handler c (run cfg fuel)) m.entered =
        run cfg fuel (.inScope depth env m₁ handler) (m₁.caught cfg param thrown.value text) := by
    rw [Eval.bind_eq, hBody]
    exact Step.afterBody_shown hText
  change step cfg (run cfg fuel) _ m = _
  rw [Step.step_tryCatch hRoom, Eval.guarded_of_final, hInside]
  intro s m' hError
  rw [hInside] at hError
  exact final_of_executeAll hError

/-- Then the body and the handler are needed. -/
theorem needs_of_shown
    (hBody : run cfg fuel (.inScope depth env m body) m.entered = .ok (.throw thrown) m₁)
    (hText : m₁.heap.display? (cfg.room (depth + 1)) thrown.value = some text)
    (t : Task) (k : Machine) :
    Needs cfg (run cfg fuel) (.execute depth env (.tryCatch body param handler span)) m t k ↔
      t = .inScope depth env m body ∧ k = m.entered ∨
        t = .inScope depth env m₁ handler ∧ k = m₁.caught cfg param thrown.value text := by
  constructor
  · intro hNeeds
    obtain ⟨-, hBefore | ⟨c, m', hBody', hAfter⟩⟩ := Step.of_needs_tryCatch hNeeds
    · exact .inl hBefore
    · rw [hBody] at hBody'
      cases hBody'
      obtain ⟨text', hText', rfl, rfl⟩ := Step.of_breaksAt_afterBody hAfter
      obtain rfl := Option.some.inj (hText.symm.trans hText')
      exact .inr ⟨rfl, rfl⟩
  · rintro (⟨rfl, rfl⟩ | ⟨rfl, rfl⟩)
    · exact needs_body_tryCatch hRoom
    · have hMore : m.heap.scopes.size < m.entered.heap.scopes.size := by
        simp [Machine.entered, Machine.withHeap, Heap.newScope]
      exact needs_handler hRoom hBody (hMore.trans_le (scopes_le_of_run hBody)) hText

/-- The statement throws the message of the host if the body throws a value that cannot be
shown. -/
theorem run_of_unshown
    (hBody : run cfg fuel (.inScope depth env m body) m.entered = .ok (.throw thrown) m₁)
    (hText : m₁.heap.display? (cfg.room (depth + 1)) thrown.value = none) :
    run cfg (fuel + 1) (.execute depth env (.tryCatch body param handler span)) m =
      .ok (.throw (Signal.thrownBy ⟨.hostStack, span⟩)) m₁ := by
  change step cfg (run cfg fuel) _ m = _
  rw [Step.step_tryCatch hRoom]
  unfold Eval.guarded
  rw [Eval.bind_eq, hBody]
  dsimp only
  rw [Step.afterBody_unshown hText]
  rfl

/-- The statement ends as the body does if the body does not throw. -/
theorem run_of_no_throw
    (hBody : run cfg fuel (.inScope depth env m body) m.entered = .ok c m₁)
    (hNoThrow : ∀ thrown, c ≠ .throw thrown) :
    run cfg (fuel + 1) (.execute depth env (.tryCatch body param handler span)) m = .ok c m₁ := by
  change step cfg (run cfg fuel) _ m = _
  rw [Step.step_tryCatch hRoom]
  unfold Eval.guarded
  rw [Eval.bind_eq, hBody]
  dsimp only
  rw [Step.afterBody_of_no_throw hNoThrow]

end

/-- What comes up in the body of a `try` statement ends the body, as the value it throws. -/
theorem thrown_of_leads {cfg : Settings} {fuel depth k : Nat} {env : Env} {body : Block}
    {m m' : Machine} {t : Task} {v : Value}
    (hLeads : Leads cfg fuel (.inScope depth env m body) m.entered k t m')
    (hRaised : t.raised (run cfg k t m') = some v) : ∃ thrown m₁,
      run cfg fuel (.inScope depth env m body) m.entered = .ok (.throw thrown) m₁ ∧
        thrown.value = v := by
  have hEnd := raised_of_leads hLeads hRaised
  cases hBody : run cfg fuel (.inScope depth env m body) m.entered with
  | ok c m₁ =>
    rw [hBody] at hEnd
    cases c with
    | throw thrown => exact ⟨thrown, m₁, rfl, Option.some.inj hEnd⟩
    | _ => cases hEnd
  | error s m₁ =>
    rw [hBody] at hEnd
    have hFinal := final_of_executeAll hBody
    cases s with
    | failure | exhausted => cases hEnd
    | _ => exact absurd hFinal id

/-- How a `try` statement ends, for all settings under which there is room for it, whatever its
body does.

* If the body throws a value that can be shown, through however many calls, the statement ends as
  the handler does. The handler runs in a new scope behind the scopes of the statement, which has
  the name of the value and no other. The body and the handler are needed once each.
* If the body throws a value that cannot be shown, the statement throws the message of the host,
  and the handler is not needed. On a host that never runs out of room there is no such value.
* If the body ends in any other way the statement ends in the same way, and the handler is not
  needed.
* The body throws whatever comes up in it, unless another `try` statement shields it. -/
theorem execute_tryCatch (cfg : Settings) (fuel depth : Nat) (env : Env) (body : Block)
    (param : Ident) (handler : Block) (span : Option Span) (m : Machine)
    (hRoom : cfg.isFull depth = false) :
    (∀ thrown m₁ text,
      run cfg fuel (.inScope depth env m body) m.entered =
        .ok (.throw thrown) m₁ →
      m₁.heap.display? (cfg.room (depth + 1)) thrown.value = some text →
      run cfg (fuel + 1) (.execute depth env (.tryCatch body param handler span)) m =
        run cfg fuel (.inScope depth env m₁ handler) (m₁.caught cfg param thrown.value text) ∧
      (m₁.caught cfg param thrown.value text).heap.scope m₁.heap.scopes.size =
        [(param.name, ⟨thrown.value, false⟩)] ∧
      ∀ t k, Needs cfg (run cfg fuel) (.execute depth env (.tryCatch body param handler span)) m
        t k ↔ t = .inScope depth env m body ∧ k = m.entered ∨
          t = .inScope depth env m₁ handler ∧ k = m₁.caught cfg param thrown.value text) ∧
    (∀ thrown m₁,
      run cfg fuel (.inScope depth env m body) m.entered =
        .ok (.throw thrown) m₁ →
      m₁.heap.display? (cfg.room (depth + 1)) thrown.value = none →
      run cfg (fuel + 1) (.execute depth env (.tryCatch body param handler span)) m =
        .ok (.throw (Signal.thrownBy ⟨.hostStack, span⟩)) m₁ ∧
      ∀ t k, Needs cfg (run cfg fuel) (.execute depth env (.tryCatch body param handler span)) m
        t k ↔ t = .inScope depth env m body ∧ k = m.entered) ∧
    (cfg.stackLimit = none → ∀ (h : Heap) v, ∃ text,
      h.display? (cfg.room (depth + 1)) v = some text) ∧
    (∀ c m₁,
      run cfg fuel (.inScope depth env m body) m.entered = .ok c m₁ →
      (∀ thrown, c ≠ .throw thrown) →
      run cfg (fuel + 1) (.execute depth env (.tryCatch body param handler span)) m = .ok c m₁ ∧
      ∀ t k, Needs cfg (run cfg fuel) (.execute depth env (.tryCatch body param handler span)) m
        t k ↔ t = .inScope depth env m body ∧ k = m.entered) ∧
    ∀ k t m' v,
      Leads cfg fuel (.inScope depth env m body) m.entered k t m' →
      t.raised (run cfg k t m') = some v → ∃ thrown m₁,
        run cfg fuel (.inScope depth env m body) m.entered =
          .ok (.throw thrown) m₁ ∧ thrown.value = v := by
  refine ⟨fun thrown m₁ text hBody hText => ?shown, fun thrown m₁ hBody hText => ?unshown,
    fun hStack h v => ?roomy, fun c m₁ hBody hNoThrow => ?otherwise,
    fun k t m' v hLeads hRaised => thrown_of_leads hLeads hRaised⟩
  case shown =>
    exact ⟨run_of_shown hRoom hBody hText, scope_caught m₁ cfg param thrown.value text,
      needs_of_shown hRoom hBody hText⟩
  case unshown =>
    refine ⟨run_of_unshown hRoom hBody hText, needs_body_only hRoom hBody fun t k hBreaks => ?_⟩
    obtain ⟨text, hText', -, -⟩ := Step.of_breaksAt_afterBody hBreaks
    rw [hText] at hText'
    cases hText'
  case roomy =>
    have hNone : cfg.room (depth + 1) = none := by rw [Settings.room, hStack, Option.map_none]
    rw [hNone]
    exact h.exists_display? v
  case otherwise =>
    exact ⟨run_of_no_throw hRoom hBody hNoThrow,
      needs_body_only hRoom hBody fun t k => Step.not_breaksAt_afterBody hNoThrow⟩

/-- A host with room for four levels, and a machine with arrays that nest five levels deep. -/
def cramped : Settings := { Session.standard.settings with stackLimit := some 4 }

def nested : Machine :=
  let arrays := #[#[.array 1], #[.array 2], #[.array 3], #[.array 4], #[]]
  ⟨⟨#[[("a", ⟨.array 0, false⟩), ("b", ⟨.array 3, false⟩)]], arrays, #[], #[], 0, 0⟩, .ofLines [],
    #[], 0, 0⟩

/-- Of two arrays that are thrown, the shallow one gets to the handler, which returns it; the deep
one does not. -/
theorem execute_tryCatch_nested :
    (∃ m', run cramped 6 (.execute 0 ⟨0, []⟩ (.tryCatch ⟨[.throw (.name ⟨"b", none⟩) none], none⟩
      ⟨"e", none⟩ ⟨[.ret (some (.name ⟨"e", none⟩)) none], none⟩ none)) nested =
        .ok (.ret (.array 3)) m') ∧
    ∃ m', run cramped 6 (.execute 0 ⟨0, []⟩ (.tryCatch ⟨[.throw (.name ⟨"a", none⟩) none], none⟩
      ⟨"e", none⟩ ⟨[.ret (some (.name ⟨"e", none⟩)) none], none⟩ none)) nested =
        .ok (.throw (Signal.thrownBy ⟨.hostStack, none⟩)) m' := by
  have hBody : ∀ (name : String) (v : Value), (name, v) ∈ [("a", .array 0), ("b", .array 3)] →
      run cramped 5 (.inScope 0 ⟨0, []⟩ nested ⟨[.throw (.name ⟨name, none⟩) none], none⟩)
        nested.entered = .ok (.throw ⟨v, none, none⟩) nested.entered := by
    simp only [List.mem_cons, List.not_mem_nil, or_false, Prod.mk.injEq]
    rintro name v (⟨rfl, rfl⟩ | ⟨rfl, rfl⟩) <;> rfl
  constructor
  · obtain ⟨hRun, -, -⟩ := (execute_tryCatch cramped 5 0 ⟨0, []⟩ _ ⟨"e", none⟩
      ⟨[.ret (some (.name ⟨"e", none⟩)) none], none⟩ none nested rfl).1 _ _ "[[]]"
        (hBody "b" (.array 3) (by simp)) rfl
    rw [hRun]
    exact ⟨_, rfl⟩
  · obtain ⟨hRun, -⟩ := (execute_tryCatch cramped 5 0 ⟨0, []⟩ _ ⟨"e", none⟩
      ⟨[.ret (some (.name ⟨"e", none⟩)) none], none⟩ none nested rfl).2.1 _ _
        (hBody "a" (.array 0) (by simp)) rfl
    exact ⟨_, hRun⟩

end Tern
