import Tern.Proofs.Machine.ControlFlow

/-!
# The call depth

A call counts itself in before its body runs and out again however the body ends. So everything
that runs leaves the call depth as it was, and a call that would go past the limit is the only
one that is refused for its depth.

* `callDepthKept`: the call depth is kept and stays below a limit;
* `callDepth_final`: whatever runs, and however it ends, the call depth is what it was;
* `applyFunc_callDepth_iff`: when a call is refused;
* `call_depth_balanced`: the call depth over the life of a session.
-/

namespace Tern

/-- The call depth is kept, and stays within a limit while something runs. -/
def callDepthKept (limit : Nat) : Discipline where
  Inv m := m.callDepth ≤ limit
  Grows m m' := m'.callDepth = m.callDepth
  Val _ _ := True
  Site := Unit
  At _ _ _ := True
  Code _ _ _ := True

section

variable {cfg : Settings} {limit : Nat} {m m' : Machine}

theorem next_of_callDepth (hInv : m.callDepth ≤ limit) (hSame : m'.callDepth = m.callDepth) :
    (callDepthKept limit).Next m m' := by
  refine ⟨?_, hSame⟩
  change m'.callDepth ≤ limit
  omega

theorem callDepthKept_lawful (hLimit : cfg.maxCallDepth ≤ limit) :
    (callDepthKept limit).Lawful cfg where
  refl _ := rfl
  trans h₁ h₂ := h₂.trans h₁
  val_grows _ _ := trivial
  at_grows _ _ := trivial
  code_part _ _ := trivial
  plain _ := trivial
  lookup _ _ _ := trivial
  superMethod _ _ _ _ _ _ := trivial
  element _ _ _ := trivial
  member _ _ _ := trivial
  host := Discipline.trusts_of_all (fun _ _ => trivial) cfg.host
  foreign _ _ := trivial
  console _ _ := trivial
  quiet hInv _ hSame _ := next_of_callDepth hInv hSame
  countNan hInv := next_of_callDepth hInv rfl
  newArray hInv _ := ⟨next_of_callDepth hInv rfl, trivial⟩
  newObject hInv _ := ⟨next_of_callDepth hInv rfl, trivial, fun _ _ => trivial⟩
  setField hInv _ _ := next_of_callDepth hInv rfl
  setElement hInv _ _ := next_of_callDepth hInv rfl
  newScope hInv _ _ := ⟨next_of_callDepth hInv rfl, trivial⟩
  declare hInv _ _ _ _ := next_of_callDepth hInv rfl
  assign hInv _ _ _ _ := next_of_callDepth hInv rfl
  newFunc hInv _ _ := ⟨next_of_callDepth hInv rfl, trivial⟩
  defineClass {m σ ctx env c} hInv _ _ := by
    obtain ⟨h, hFinal⟩ := Eval.exists_final_defineClass env c m
    rw [hFinal]
    exact next_of_callDepth hInv rfl
  call := by
    intro m m₁ id self args env hInv _ _ _ hDepth hEnter
    obtain ⟨h, rfl⟩ := Eval.exists_of_enterCall hEnter
    refine ⟨?_, ⟨(), .top, trivial, fun _ _ => trivial⟩, fun m₂ hm₂ => ?_⟩
    · change m.callDepth + 1 ≤ limit
      omega
    · have hBack : m₂.callDepth = m.callDepth + 1 := hm₂.2
      refine next_of_callDepth hInv ?_
      change m₂.callDepth - 1 = m.callDepth
      omega

theorem callDepthKept_fits (h : Heap) (t : Task) : (callDepthKept limit).Fits h t := by
  cases t with
  | evaluate | evaluateAll | execute | executeSimple | executeAll =>
    exact ⟨(), .top, trivial, by simp [callDepthKept]⟩
  | apply | applyFunc => exact ⟨trivial, fun _ _ => trivial⟩
  | executeElifs | runWhile =>
    exact ⟨(), .top, trivial, by simp [callDepthKept], by simp [callDepthKept]⟩
  | runFor =>
    exact ⟨(), .top, trivial, by simp [callDepthKept], by simp [callDepthKept],
      by simp [callDepthKept]⟩

theorem callDepthKept_topLevel (n : Node) : (callDepthKept limit).TopLevel n :=
  ⟨(), .top, trivial, fun _ _ => trivial⟩

end

/-! ## Balance and bound -/

section

variable (cfg : Settings) (m : Machine)

/-- A limit that holds of the machine at hand and of all calls from it. -/
theorem callDepthKept_here :
    ∃ limit, (callDepthKept limit).Lawful cfg ∧ (callDepthKept limit).Inv m :=
  ⟨max cfg.maxCallDepth m.callDepth, callDepthKept_lawful (Nat.le_max_left _ _),
    Nat.le_max_right _ _⟩

/-- Whatever runs, and however it ends, the call depth is what it was. -/
theorem callDepth_final (fuel : Nat) (t : Task) :
    ((run cfg fuel t).final m).callDepth = m.callDepth := by
  obtain ⟨limit, L, hInv⟩ := callDepthKept_here cfg m
  exact (L.next_run fuel hInv (callDepthKept_fits _ t)).2

theorem callDepth_interpret (halt : Nat → Bool) (env : Env) (p : Program) :
    ((interpret cfg halt env p).final m).callDepth = m.callDepth := by
  obtain ⟨limit, L, hInv⟩ := callDepthKept_here cfg m
  have hBody : ∀ s ∈ p.body, (callDepthKept limit).Code () .top (.stmt s) := fun _ _ => trivial
  exact (L.holds_interpretFrom (fun _ => trivial) hInv hBody).next.2

end

/-! ## Refused calls -/

section

variable {cfg : Settings} {m : Machine}

/-- A call checks the number of its arguments first and the call depth next. -/
theorem checkCall_eq (f : FuncDef) (received : Nat) :
    Eval.checkCall cfg f received m =
      if f.params.length ≠ received then
        .error (.fault ⟨.arity f.id.name f.params.length received, none⟩) m
      else if cfg.maxCallDepth ≤ m.callDepth then
        .error (.fault ⟨.callDepth cfg.maxCallDepth, none⟩) m
      else .ok () m := by
  unfold Eval.checkCall
  split
  · rfl
  · change (if cfg.maxCallDepth ≤ m.callDepth then Eval.fault _ else pure ()) m = _
    split
    · rfl
    · rfl

/-- What happens in a call that is not refused. -/
def admitted (inner : Worker) (depth : Nat) (closure : Closure) (self : Option ObjectId)
    (args : List Value) : Eval Value := do
  let env ← Eval.enterCall closure self args
  let c ← Eval.withCallDepth (inner (.executeAll depth env closure.definition.body.body))
  Eval.callResult closure.initializer c

theorem step_applyFunc (inner : Worker) (depth : Nat) (id : FuncId) (self : Option ObjectId)
    (args : List Value) :
    step cfg inner (.applyFunc depth id self args) m =
      match Eval.checkCall cfg (m.heap.closure id).definition args.length m with
      | .ok _ m' => admitted inner depth (m.heap.closure id) self args m'
      | .error s m' => .error s m' := by
  change EStateM.bind (Eval.checkCall cfg (m.heap.closure id).definition args.length)
    (fun _ => admitted inner depth (m.heap.closure id) self args) m = _
  unfold EStateM.bind
  cases Eval.checkCall cfg (m.heap.closure id).definition args.length m with
  | ok _ m' => rfl
  | error s m' => rfl

/-- An admitted call is never left with a fault: its body turns faults into throws. -/
theorem admitted_ne_fault (fuel depth : Nat) (closure : Closure) (self : Option ObjectId)
    (args : List Value) (e : RuntimeError) (m' : Machine) :
    admitted (run cfg fuel) depth closure self args m ≠ .error (.fault e) m' := by
  intro h
  obtain ⟨env, m₁, hEnter⟩ := Discipline.enterCall_ok closure self args m
  change EStateM.bind (Eval.enterCall closure self args) _ m = _ at h
  unfold EStateM.bind at h
  rw [hEnter] at h
  change EStateM.bind (Eval.withCallDepth _) _ m₁ = _ at h
  unfold EStateM.bind Eval.withCallDepth at h
  cases hBody : run cfg fuel (.executeAll depth env closure.definition.body.body)
      { m₁ with callDepth := m₁.callDepth + 1 } with
  | ok c m₂ =>
    rw [hBody] at h
    cases c with
    | normal | breakLoop | continueLoop | ret | throw => cases h
  | error s m₂ =>
    rw [hBody] at h
    cases h
    exact final_of_executeAll hBody

/-- A call is refused for its depth exactly when it has the right number of arguments and the
call depth is at its limit. -/
theorem applyFunc_callDepth_iff (hBound : m.callDepth ≤ cfg.maxCallDepth) (fuel depth : Nat)
    (id : FuncId) (self : Option ObjectId) (args : List Value) :
    (∃ limit span m', run cfg (fuel + 1) (.applyFunc depth id self args) m =
        .error (.fault ⟨.callDepth limit, span⟩) m') ↔
      (m.heap.closure id).definition.params.length = args.length ∧
        m.callDepth = cfg.maxCallDepth := by
  change (∃ limit span m', step cfg (run cfg fuel) (.applyFunc depth id self args) m = _) ↔ _
  rw [step_applyFunc, checkCall_eq]
  by_cases hArity : (m.heap.closure id).definition.params.length ≠ args.length
  · rw [if_pos hArity]
    simp [hArity]
  rw [if_neg hArity]
  by_cases hDepth : cfg.maxCallDepth ≤ m.callDepth
  · rw [if_pos hDepth]
    constructor
    · intro _
      exact ⟨Decidable.not_not.mp hArity, Nat.le_antisymm hBound hDepth⟩
    · intro _
      exact ⟨_, _, _, rfl⟩
  · rw [if_neg hDepth]
    constructor
    · rintro ⟨limit, span, m', hRun⟩
      exact absurd hRun (admitted_ne_fault fuel depth _ self args _ m')
    · rintro ⟨-, hFull⟩
      omega

end

/-! ## Sessions -/

theorem callDepthOf_le {x : Float} {n : Nat} (h : callDepthOf x = .ok n) :
    n ≤ maxCallDepthLimit := by
  unfold callDepthOf at h
  split at h
  · cases h
    exact Nat.min_le_right _ _
  · cases h

theorem defaultCallDepth_le : defaultCallDepth ≤ maxCallDepthLimit := by decide

/-- Between the steps of a session no call is under way. -/
theorem callDepth_of_reached {opts : Session.Options} {heap : Heap} {globals : Env} {s : Session}
    (hReached : (Session.attach opts heap globals).Reached (fun _ => True) s) :
    s.machine.callDepth = 0 := by
  obtain ⟨limit, L, hInv⟩ := callDepthKept_here (Session.attach opts heap globals).settings
    (Session.attach opts heap globals).machine
  exact (L.next_of_reached (fun n _ => callDepthKept_topLevel n) hInv hReached).2

/-- The call depth over the life of a session whose limit is the usual one or was asked for by a
number. Between steps it is zero. Whatever task or program runs, from whatever machine and to
whatever end, leaves it as it was; from a call depth within the limit every moment is within the
limit, which is itself at most a thousand; and a call is refused for its depth exactly when it
has the right number of arguments and the limit is reached. -/
theorem call_depth_balanced (opts : Session.Options) (heap : Heap) (globals : Env) (s : Session)
    (hLimit : opts.maxCallDepth = defaultCallDepth ∨ ∃ x, callDepthOf x = .ok opts.maxCallDepth)
    (hReached : (Session.attach opts heap globals).Reached (fun _ => True) s) :
    s.machine.callDepth = 0 ∧ s.settings.maxCallDepth ≤ 1000 ∧
    (∀ fuel t m, ((run s.settings fuel t).final m).callDepth = m.callDepth) ∧
    (∀ env p m, ((interpret s.settings s.halt env p).final m).callDepth = m.callDepth) ∧
    (∀ fuel t m k t' m', m.callDepth ≤ s.settings.maxCallDepth →
      Moment s.settings fuel t m k t' m' → m'.callDepth ≤ s.settings.maxCallDepth) ∧
    (∀ env p m t' m', m.callDepth ≤ s.settings.maxCallDepth →
      Passes s.settings s.halt env p m t' m' → m'.callDepth ≤ s.settings.maxCallDepth) ∧
    ∀ fuel depth id self args m, m.callDepth ≤ s.settings.maxCallDepth →
      ((∃ limit span m', run s.settings (fuel + 1) (.applyFunc depth id self args) m =
          .error (.fault ⟨.callDepth limit, span⟩) m') ↔
        (m.heap.closure id).definition.params.length = args.length ∧
          m.callDepth = s.settings.maxCallDepth) := by
  have hSettings : s.settings.maxCallDepth = opts.maxCallDepth :=
    congrArg Settings.maxCallDepth hReached.settings_eq
  have hMax : s.settings.maxCallDepth ≤ maxCallDepthLimit := by
    rw [hSettings]
    rcases hLimit with hDefault | ⟨x, hx⟩
    · rw [hDefault]
      exact defaultCallDepth_le
    · exact callDepthOf_le hx
  have L := callDepthKept_lawful (Nat.le_refl s.settings.maxCallDepth)
  refine ⟨callDepth_of_reached hReached, hMax, fun fuel t m => callDepth_final _ m fuel t,
    fun env p m => callDepth_interpret _ m _ env p, ?_, ?_, ?_⟩
  · intro fuel t m k t' m' hBound hMoment
    exact (L.fits_of_moment hBound (callDepthKept_fits _ t) hMoment).1
  · intro env p m t' m' hBound hPasses
    have hBody : ∀ s' ∈ p.body, (callDepthKept s.settings.maxCallDepth).Code () .top (.stmt s') :=
      fun _ _ => trivial
    exact (L.fits_of_passes (fun _ => trivial) hBound hBody hPasses).1
  · exact fun fuel depth id self args m hBound =>
      applyFunc_callDepth_iff hBound fuel depth id self args

/-- After a run that calls itself without end, no call is under way. -/
theorem call_depth_balanced_standard :
    (Session.standard.run "func f() { f(); } f();" none).2.machine.callDepth = 0 := by
  have hReached : Session.standard.Reached (fun _ => True)
      (Session.standard.run "func f() { f(); } f();" none).2 :=
    .run .start _ _ fun _ _ => trivial
  exact (call_depth_balanced _ _ _ _ (.inl rfl) hReached).1

end Tern
