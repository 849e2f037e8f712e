import Tern.Proofs.Machine.Moment
import Tern.Proofs.Machine.ControlFlow
import Tern.Proofs.Value.Growth

/-!
# What leaves a session

A statement turns every signal into a throw but two: a failure of the host, and the end of the
steps allowed. While all values stem from the standard functions, the first comes up only where the
console fails. What is left is the text of a value that nothing caught. It is made outside of every
statement, so a value that nests too deeply for the host leaves the session with the overflow it
causes.

* `standardValues`: no function that the host added ever turns up, and only the console fails;
* `signal_of_executeTop`: what leaves a statement then;
* `run_ends_in_result`: when a session gives back a result.
-/

namespace Tern

/-! ## Standard values -/

/-- No value on the heap is a function that the host added. -/
structure Heap.Standard (h : Heap) : Prop where
  scopes : ∀ i, ∀ e ∈ h.scope i, e.2.value.IsStandard
  elements : ∀ i, ∀ v ∈ (h.elements i).toList, v.IsStandard
  fields : ∀ i, ∀ e ∈ (h.object i).fields, e.2.IsStandard

namespace Heap.Standard

variable {h h' : Heap}

theorem get (hHeap : h.Standard) {env : Env} {name : String} {v : Value}
    (hGet : h.get env name = .ok v) : v.IsStandard := by
  obtain ⟨s, b, hFound, rfl⟩ := Heap.exists_of_get hGet
  exact hHeap.scopes s (name, b) (Table.mem_of_lookup hFound)

theorem member (hHeap : h.Standard) {id : ObjectId} {name : String} {v : Value}
    (hMember : h.member? id name = some v) : v.IsStandard := by
  rw [Heap.member?] at hMember
  split at hMember
  · next hField =>
    cases hMember
    exact hHeap.fields id (name, v) (Table.mem_of_lookup hField)
  · obtain ⟨f, -, rfl⟩ := Option.map_eq_some_iff.mp hMember
    trivial

/-- New scopes after the ones that are there, and nothing else that holds values. -/
theorem append (hHeap : h.Standard) (new : List Scope) (hScopes : h'.scopes = h.scopes ++ new)
    (hArrays : h'.arrays = h.arrays) (hObjects : h'.objects = h.objects)
    (hNew : ∀ s ∈ new, ∀ e ∈ s, e.2.value.IsStandard) : h'.Standard where
  scopes i e he := by
    by_cases hi : i < h.scopes.size
    · rw [Heap.scope, hScopes, getD_append_of_lt hi] at he
      exact hHeap.scopes i e he
    · obtain ⟨j, rfl⟩ := Nat.exists_eq_add_of_le (Nat.le_of_not_lt hi)
      rw [Heap.scope, hScopes, getD_append_add] at he
      by_cases hj : j < new.length
      · rw [List.getD_eq_getElem?_getD, List.getElem?_eq_getElem hj] at he
        exact hNew _ (List.getElem_mem hj) e he
      · rw [List.getD_eq_getElem?_getD,
          List.getElem?_eq_none_iff.mpr (Nat.le_of_not_lt hj)] at he
        cases he
  elements i v hv := by
    rw [Heap.elements, hArrays] at hv
    exact hHeap.elements i v hv
  fields i e he := by
    rw [Heap.object, hObjects] at he
    exact hHeap.fields i e he

theorem of_same (hHeap : h.Standard) (hScopes : h'.scopes = h.scopes)
    (hArrays : h'.arrays = h.arrays) (hObjects : h'.objects = h.objects) : h'.Standard :=
  hHeap.append [] (by simpa using hScopes) hArrays hObjects (by simp)

theorem newScope (hHeap : h.Standard) {names : Scope}
    (hNames : ∀ e ∈ names, e.2.value.IsStandard) : (h.newScope names).2.Standard :=
  hHeap.append [names] rfl rfl rfl (by simpa using hNames)

theorem bind (hHeap : h.Standard) {id : ScopeId} {name : String} {v : Value} {constant : Bool}
    (hv : v.IsStandard) : (h.bind id name ⟨v, constant⟩).Standard where
  scopes i e he := by
    rw [Heap.scope_bind] at he
    split at he
    · rcases Table.mem_of_mem_set he with hOld | rfl
      · exact hHeap.scopes i e hOld
      · exact hv
    · exact hHeap.scopes i e he
  elements := hHeap.elements
  fields := hHeap.fields

theorem newArray (hHeap : h.Standard) {vs : List Value} (hValues : ∀ v ∈ vs, v.IsStandard) :
    (h.newArray vs.toArray).2.Standard where
  scopes := hHeap.scopes
  elements i v hv := by
    rw [Heap.elements_newArray] at hv
    split at hv
    · exact hValues v hv
    · exact hHeap.elements i v hv
  fields := hHeap.fields

theorem setElement (hHeap : h.Standard) {id : ArrayId} {k : Nat} {v : Value}
    (hValue : v.IsStandard) : (h.setElement id k v).Standard where
  scopes := hHeap.scopes
  elements i w hw := by
    rw [Heap.elements_setElement] at hw
    split at hw
    · rw [Array.toList_setIfInBounds] at hw
      rcases List.mem_or_eq_of_mem_set hw with hOld | rfl
      · exact hHeap.elements i w hOld
      · exact hValue
    · exact hHeap.elements i w hw
  fields := hHeap.fields

theorem newObject (hHeap : h.Standard) (c : Class) : (h.newObject ⟨c, []⟩).2.Standard where
  scopes := hHeap.scopes
  elements := hHeap.elements
  fields i e he := by
    rw [Heap.object_newObject] at he
    split at he
    · cases he
    · exact hHeap.fields i e he

theorem setField (hHeap : h.Standard) {id : ObjectId} {name : String} {v : Value}
    (hValue : v.IsStandard) : (h.setField id name v).Standard where
  scopes := hHeap.scopes
  elements := hHeap.elements
  fields i e he := by
    rw [Heap.object_setField] at he
    split at he
    · rcases Table.mem_of_mem_set he with hOld | rfl
      · exact hHeap.fields i e hOld
      · exact hValue
    · exact hHeap.fields i e he

end Heap.Standard

/-- No function that the host added ever turns up, and what fails is the console, which stems from
`c`. -/
def standardValues (c : Console) : Discipline where
  Inv m := m.heap.Standard ∧ c.Onward m.console
  Grows _ _ := True
  Val _ v := v.IsStandard
  Site := Unit
  At _ _ _ := True
  Code _ _ _ := True
  MayFail := c.Fails

theorem Value.isStandard_of_isPlain {v : Value} (hv : v.IsPlain) : v.IsStandard := by
  cases v with
  | native => cases hv
  | null | bool | number | nan | string | array | func | bound | cls | object => trivial

section

variable {c : Console} {m m₁ : Machine} {h : Heap} {env : Env}

theorem next_standard (hInv : (standardValues c).Inv m) (hHeap : h.Standard) :
    (standardValues c).Next m (m.withHeap h) :=
  ⟨⟨hHeap, hInv.2⟩, trivial⟩

theorem standard_defineClass {d : ClassDef} (hInv : (standardValues c).Inv m) :
    (standardValues c).Next m ((Eval.defineClass env d).final m) := by
  have hClass : ∀ parent, (m.heap.withClass env d parent).Standard := by
    intro parent
    refine hInv.1.append (Heap.superScope parent) rfl rfl rfl ?_
    cases parent with
    | none => simp [Heap.superScope]
    | some p => simp [Heap.superScope, Value.IsStandard]
  rcases Eval.final_defineClass env d m with hSame | ⟨parent, -, -, hFinal | ⟨-, hFinal⟩⟩
  · rw [hSame]
    exact ⟨hInv, trivial⟩
  · rw [hFinal]
    exact next_standard hInv (hClass parent)
  · rw [hFinal]
    exact next_standard hInv ((hClass parent).bind trivial)

theorem standard_enterCall {closure : Closure} {self : Option ObjectId} {args : List Value}
    (hInv : (standardValues c).Inv m) (hArgs : ∀ v ∈ args, v.IsStandard)
    (hEnter : Eval.enterCall closure self args m = .ok env m₁) : (standardValues c).Inv m₁ := by
  have hParams : ∀ e ∈ Eval.paramScope closure.definition args, e.2.value.IsStandard := by
    intro e he
    have hMem := (List.of_mem_zip (Table.mem_of_mem_ofList he)).2
    obtain ⟨v, hv, hValue⟩ := List.mem_map.mp hMem
    rw [← hValue]
    exact hArgs v hv
  cases self with
  | none =>
    rw [Eval.enterCall_func] at hEnter
    cases hEnter
    exact (next_standard hInv (hInv.1.newScope hParams)).1
  | some o =>
    rw [Eval.enterCall_method] at hEnter
    cases hEnter
    have hThis : (m.heap.newScope [("this", ⟨.object o, true⟩)]).2.Standard :=
      hInv.1.newScope (by simp [Value.IsStandard])
    exact (next_standard hInv (hThis.newScope hParams)).1

end

theorem standardValues_lawful (c : Console) (cfg : Settings) : (standardValues c).Lawful cfg where
  refl _ := trivial
  trans _ _ := trivial
  val_grows _ hv := hv
  at_grows _ _ := trivial
  code_part _ _ := trivial
  plain hv := Value.isStandard_of_isPlain hv
  lookup hInv _ hGet := hInv.1.get hGet
  superMethod _ _ _ _ _ _ := trivial
  element {m id v} hInv _ hMem := hInv.1.elements id v hMem
  member hInv _ hMember := hInv.1.member hMember
  host := Discipline.trusts_of_not_foreign (fun _ _ _ => id) cfg.host
  foreign hNative := absurd hNative id
  console hInv hFails := hInv.2.fails _ hFails
  quiet {m m'} hInv hHeap _ hOnward := by
    have hSame : m'.heap.Standard := hHeap ▸ hInv.1
    exact ⟨⟨hSame, hInv.2.trans hOnward⟩, trivial⟩
  countNan hInv := next_standard hInv (hInv.1.of_same rfl rfl rfl)
  newArray hInv hValues := ⟨next_standard hInv (hInv.1.newArray hValues), trivial⟩
  newObject hInv _ := ⟨next_standard hInv (hInv.1.newObject _), trivial, fun _ _ => trivial⟩
  setField hInv _ hv := next_standard hInv (hInv.1.setField hv)
  setElement hInv _ hv := next_standard hInv (hInv.1.setElement hv)
  newScope hInv _ hNames :=
    ⟨next_standard hInv (hInv.1.newScope fun e he => (hNames e he).2), trivial⟩
  declare hInv _ _ hv _ := next_standard hInv (hInv.1.bind hv)
  assign hInv _ _ hv _ := next_standard hInv (hInv.1.bind hv)
  newFunc hInv _ _ := ⟨next_standard hInv (hInv.1.of_same rfl rfl rfl), trivial⟩
  defineClass hInv _ _ := standard_defineClass hInv
  call := by
    intro m m₁ id self args env hInv _ hArgs _ _ hEnter
    have hEntered := standard_enterCall hInv hArgs hEnter
    exact ⟨hEntered, ⟨(), .top, trivial, fun _ _ => trivial⟩, fun m₂ hm₂ => ⟨hm₂.1, trivial⟩⟩

theorem standard_create (opts : Session.Options) {heap : Heap} (hHeap : heap.Standard) :
    (Session.create opts heap Native.standard).machine.heap.Standard := by
  have hNatives : ∀ f ∈ Native.standard, (Value.native f).IsStandard := by
    simp [Native.standard, Value.IsStandard]
  refine hHeap.newScope fun e he => ?_
  obtain ⟨f, hf, rfl⟩ := List.mem_map.mp (Table.mem_of_mem_ofList he)
  exact hNatives f hf

theorem standard_empty : Heap.empty.Standard where
  scopes i e he := by simp [Heap.scope, Heap.empty] at he
  elements i v hv := by simp [Heap.elements, Heap.empty] at hv
  fields i e he := by simp [Heap.object, Heap.empty, default] at he

/-! ## Statements -/

section

variable {cfg : Settings} {env : Env} {c : Console} {m m' : Machine} {s : Stmt}

theorem holds_standardTop (cfg : Settings) (hInv : (standardValues c).Inv m) (env : Env)
    (s : Stmt) : (standardValues c).Holds m m (executeTop cfg env s)
      fun m' r => (standardValues c).Ends m'.heap r.1 := by
  have hAt : (standardValues c).At m.heap () env := trivial
  have hCode : (standardValues c).Code () .top (.stmt s) := trivial
  exact (standardValues_lawful c cfg).holds_executeTop hInv hAt hCode

/-- Only the end of the steps allowed, or a failure of the console, leaves a statement at the top
level. -/
theorem signal_of_executeTop {signal : Signal} (hInv : (standardValues c).Inv m)
    (h : executeTop cfg env s m = .error signal m') :
    signal = .exhausted ∨ ∃ message, signal = .failure message ∧ c.Fails message := by
  have hFinal := final_of_executeTop h
  have hEnd := (holds_standardTop cfg hInv env s).2
  rw [h] at hEnd
  cases signal with
  | exhausted => exact .inl rfl
  | failure message => exact .inr ⟨message, rfl, hEnd.2⟩
  | fault | thrown | overflow => cases hFinal

end

/-! ## Programs -/

/-- Some statement of `body` throws a value that nothing catches and that nests too deeply to be
shown. -/
def ThrowsUnshown (cfg : Settings) (halt : Nat → Bool) (env : Env) (body : List Stmt)
    (m : Machine) : Prop :=
  ∃ s m₁ t v m₂, Starts cfg halt env body m s m₁ ∧
    executeTop cfg env s m₁ = .ok (.throw t, v) m₂ ∧ m₂.heap.display? (cfg.room 0) t.value = none

section

variable {cfg : Settings} {halt : Nat → Bool} {env : Env} {m m₁ : Machine} {s : Stmt}
  {rest : List Stmt} {c : Completion} {v : Value}

/-- The statement after which a program stops. -/
theorem throwsUnshown_cons (rest : List Stmt) (hGoes : halt m.executed = false)
    (hRun : executeTop cfg env s m = .ok (c, v) m₁) :
    ThrowsUnshown cfg halt env (s :: rest) m ↔
      (∃ t, c = .throw t ∧ m₁.heap.display? (cfg.room 0) t.value = none) ∨
        c = .normal ∧
          ThrowsUnshown cfg halt env rest { m₁ with executed := m₁.executed + 1 } := by
  constructor
  · rintro ⟨s', m₂, t, v', m₃, hStarts, hThrow, hText⟩
    cases hStarts with
    | first _ =>
      rw [hRun] at hThrow
      cases hThrow
      exact .inl ⟨t, rfl, hText⟩
    | later _ ends after =>
      rw [hRun] at ends
      cases ends
      exact .inr ⟨rfl, s', m₂, t, v', m₃, after, hThrow, hText⟩
  · rintro (⟨t, rfl, hText⟩ | ⟨rfl, s', m₂, t, v', m₃, hStarts, hThrow, hText⟩)
    · exact ⟨s, m, t, v, m₁, .first hGoes, hRun, hText⟩
    · exact ⟨s', m₂, t, v', m₃, .later hGoes hRun hStarts, hThrow, hText⟩

theorem not_throwsUnshown_halted (hHalt : halt m.executed = true) (body : List Stmt) :
    ¬ThrowsUnshown cfg halt env body m := by
  rintro ⟨s', m₂, t, v', m₃, hStarts, -⟩
  cases hStarts with
  | first goesOn | later goesOn =>
    rw [hHalt] at goesOn
    cases goesOn

theorem Eval.heap_bind {β : Type} (k : Heap → Eval β) (m : Machine) :
    (Eval.heap >>= k) m = k m.heap m := rfl

theorem display_some {depth : Nat} {text : String}
    (hText : m.heap.display? (cfg.room depth) v = some text) :
    Eval.display cfg depth v m = .ok text m := by
  unfold Eval.display
  rw [Eval.heap_bind, hText]
  rfl

theorem display_none {depth : Nat} (hText : m.heap.display? (cfg.room depth) v = none) :
    Eval.display cfg depth v m = .error (.overflow overflowMessage) m := by
  unfold Eval.display
  rw [Eval.heap_bind, hText]
  rfl

/-- How statements at the top level may end: an overflow leaves them exactly if a value that
nothing caught cannot be shown, and a failure only if it is one of those that may come. -/
def EndsShown (cfg : Settings) (mayFail : String → Prop) (unshown : Prop) :
    EStateM.Result Signal Machine Outcome → Prop
  | .ok (.uncaught t) m => ¬unshown ∧ ∃ text, m.heap.display? (cfg.room 0) t.value = some text
  | .ok _ _ => ¬unshown
  | .error .exhausted _ => True
  | .error (.failure message) _ => mayFail message
  | .error (.overflow message) _ => message = overflowMessage ∧ unshown
  | .error _ _ => False

theorem endsShown_interpretFrom {c : Console} {body : List Stmt}
    (hInv : (standardValues c).Inv m) (value : Value) :
    EndsShown cfg c.Fails (ThrowsUnshown cfg halt env body m)
      (interpretFrom cfg halt env value body m) := by
  induction body generalizing m value with
  | nil =>
    rintro ⟨s, m₁, t, v, m₂, hStarts, -⟩
    cases hStarts
  | cons s rest ih =>
    cases hHalt : halt m.executed with
    | true =>
      rw [interpretFrom_halted hHalt]
      exact not_throwsUnshown_halted hHalt _
    | false =>
      cases hRun : executeTop cfg env s m with
      | error signal m₁ =>
        rw [interpretFrom_error hHalt hRun]
        obtain rfl | ⟨message, rfl, hFails⟩ := signal_of_executeTop hInv hRun
        · trivial
        · exact hFails
      | ok r m₁ =>
        obtain ⟨c, v⟩ := r
        have hInv₁ := ((holds_standardTop cfg hInv env s).ok hRun).1.1
        have hUnshown := propext (throwsUnshown_cons rest hHalt hRun)
        rw [interpretFrom_ok hHalt hRun, hUnshown]
        cases c with
        | normal =>
          simpa [afterTop] using ih (m := { m₁ with executed := m₁.executed + 1 }) hInv₁ v
        | throw t =>
          cases hText : m₁.heap.display? (cfg.room 0) t.value with
          | none =>
            have hDisplay := display_none (m := { m₁ with executed := m₁.executed + 1 }) hText
            change EndsShown cfg _ _ (EStateM.bind (Eval.display cfg 0 t.value) _ _)
            unfold EStateM.bind
            rw [hDisplay]
            exact ⟨rfl, .inl ⟨t, rfl, hText⟩⟩
          | some text =>
            have hDisplay := display_some (m := { m₁ with executed := m₁.executed + 1 }) hText
            change EndsShown cfg _ _ (EStateM.bind (Eval.display cfg 0 t.value) _ _)
            unfold EStateM.bind
            rw [hDisplay]
            refine ⟨?_, text, hText⟩
            simp [hText]
        | ret | breakLoop | continueLoop =>
          rintro (⟨t, hThrow, -⟩ | ⟨hNormal, -⟩)
          · cases hThrow
          · cases hNormal

end

/-! ## Sessions -/

namespace Session

/-- The source is read, and running it throws a value that nothing catches and that nests too
deeply to be shown. -/
def ThrowsUnshown (s : Session) (source : String) (path : Option String) : Prop :=
  ∃ p, Program.parse? source = .ok p ∧
    Tern.ThrowsUnshown s.settings s.halt s.globals p.body (s.noted p path)

variable {s : Session} {p : Program} {path : Option String}

theorem fst_perform_ok {α : Type} {x : Eval α} {a : α} {m : Machine} (h : x s.machine = .ok a m) :
    (s.perform x).1 = .ok a := by
  unfold perform
  rw [h]

theorem fst_perform_error {α : Type} {x : Eval α} {signal : Signal} {m : Machine}
    (h : x s.machine = .error signal m) : (s.perform x).1 = .error signal := by
  unfold perform
  rw [h]

/-- A program whose values are all standard ends in a result, unless the steps allowed do not
suffice, a value that nothing caught cannot be shown, or the console fails. -/
theorem runProgram_ends (path : Option String) (hHeap : s.machine.heap.Standard) :
    (s.runProgram p path).1 = .error .exhausted ∨
    ((∃ r, (s.runProgram p path).1 = .ok r) ∧
      ¬Tern.ThrowsUnshown s.settings s.halt s.globals p.body (s.noted p path)) ∨
    ((s.runProgram p path).1 = .error (.overflow overflowMessage) ∧
      Tern.ThrowsUnshown s.settings s.halt s.globals p.body (s.noted p path)) ∨
    ∃ message, (s.runProgram p path).1 = .error (.failure message) ∧
      s.machine.console.Fails message := by
  have hNoted : (standardValues s.machine.console).Inv (s.noted p path) :=
    ⟨hHeap, .refl s.machine.console⟩
  have hEnds : EndsShown s.settings s.machine.console.Fails _
      (interpret s.settings s.halt s.globals p (s.noted p path)) :=
    endsShown_interpretFrom hNoted .null
  have hRun := runIn_eq s p path
  unfold EStateM.bind at hRun
  cases hOutcome : interpret s.settings s.halt s.globals p (s.noted p path) with
  | error signal m =>
    rw [hOutcome] at hRun hEnds
    have hLeaves : (s.runProgram p path).1 = .error signal := fst_perform_error hRun
    rw [hLeaves]
    cases signal with
    | exhausted => exact .inl rfl
    | overflow message =>
      obtain ⟨rfl, hUnshown⟩ := hEnds
      exact .inr (.inr (.inl ⟨rfl, hUnshown⟩))
    | failure message => exact .inr (.inr (.inr ⟨message, rfl, hEnds⟩))
    | fault | thrown => cases hEnds
  | ok outcome m =>
    rw [hOutcome] at hRun hEnds
    cases outcome with
    | completed v => exact .inr (.inl ⟨⟨_, fst_perform_ok hRun⟩, hEnds⟩)
    | halted n => exact .inr (.inl ⟨⟨_, fst_perform_ok hRun⟩, hEnds⟩)
    | uncaught t =>
      obtain ⟨hShown, text, hText⟩ := hEnds
      have hDisplay : Eval.display s.settings 0 t.value m = .ok text m := display_some hText
      change _ = EStateM.bind (Eval.display s.settings 0 t.value) _ m at hRun
      unfold EStateM.bind at hRun
      rw [hDisplay] at hRun
      exact .inr (.inl ⟨⟨_, fst_perform_ok hRun⟩, hShown⟩)

end Session

/-- In every session that was reached with the standard functions, whatever its console and the
room that the host has, and whatever sources, programs and expressions went before: running a
source ends in a result, a value or a diagnostic, unless
* the steps allowed do not suffice;
* the program throws a value that nothing catches and that nests too deeply to be shown: then, and
  only then, the lack of room leaves the session;
* the console fails, as it may from where the run starts: then its failure leaves the session. -/
theorem run_ends_in_result (opts : Session.Options) (s : Session) (source : String)
    (path : Option String)
    (hReached : (Session.create opts .empty Native.standard).Reached (fun _ => True) s) :
    (s.run source path).1 = .error .exhausted ∨
    ((∃ r, (s.run source path).1 = .ok r) ∧ ¬s.ThrowsUnshown source path) ∨
    ((s.run source path).1 = .error (.overflow overflowMessage) ∧
      s.ThrowsUnshown source path) ∨
    ∃ message, (s.run source path).1 = .error (.failure message) ∧
      s.machine.console.Fails message := by
  have hStart := standard_create opts standard_empty
  have L := standardValues_lawful opts.console
    (Session.create opts .empty Native.standard).settings
  have hHeap : s.machine.heap.Standard :=
    (L.next_of_reached (fun n _ => ⟨(), .top, trivial, fun _ _ => trivial⟩)
      ⟨hStart, .refl opts.console⟩ hReached).1.1
  unfold Session.run Session.ThrowsUnshown
  cases hParse : Program.parse? source with
  | ok p => simpa using Session.runProgram_ends (p := p) path hHeap
  | error e => exact .inr (.inl ⟨⟨_, Session.fst_perform_ok rfl⟩, by simp⟩)

set_option maxRecDepth 100000 in
/-- An array that nothing catches is shown, so a session reports it. -/
theorem run_ends_in_result_thrown :
    (Session.create .standard .empty Native.standard).Reached (fun _ => True) Session.standard ∧
    (∃ d, (Session.standard.run "throw [[], null];" none).1 = .ok (.failed d)) ∧
    ¬Session.standard.ThrowsUnshown "throw [[], null];" none := by
  have hTokens : ∃ stream p, TokenStream.ofSource "throw [[], null];" = stream ∧
      Program.ofStream? stream = .ok p ∧
      ∃ d, (Session.standard.runProgram p none).1 = .ok (.failed d) := by
    refine ⟨?stream, ?program, ?scanned, ?read, ?diagnostic, ?runs⟩
    case scanned =>
      cbv
      rfl
    case read => rfl
    case runs => rfl
  obtain ⟨stream, p, hStream, hRead, d, hRun⟩ := hTokens
  have hParse : Program.parse? "throw [[], null];" = .ok p := by
    rw [Program.parse?, hStream, hRead]
  have hReport : (Session.standard.run "throw [[], null];" none).1 = .ok (.failed d) := by
    rw [Session.run, hParse]
    exact hRun
  refine ⟨.start, ⟨d, hReport⟩, ?_⟩
  rcases run_ends_in_result .standard Session.standard "throw [[], null];" none .start with
    hExhausted | ⟨-, hShown⟩ | ⟨hOverflow, -⟩ | ⟨message, hFailure, -⟩
  · rw [hReport] at hExhausted
    cases hExhausted
  · exact hShown
  · rw [hReport] at hOverflow
    cases hOverflow
  · rw [hReport] at hFailure
    cases hFailure

end Tern
