import Tern.Machine.Evaluate

/-!
# How operations are left

What an expression, a statement or a call does itself, apart from its parts, is left in two ways
only: with a fault that has no place yet, or for lack of room. Where it reads, writes, or does what
a function of the host asks for, the host may also fail.

* `Signal.IsPlain`, `Signal.IsRaw`: the signals that operations are left with;
* `Eval.Plain`, `Eval.Raw`: a computation that is left with no others;
* `Eval.plain_binary`, `Eval.plain_defineClass` and the like: the operations are plain;
* `Eval.raw_request`, `Eval.raw_reply`: what functions of the host ask for, and how they end, is raw.
-/

namespace Tern

/-- A fault that has no place yet, or a lack of room. -/
def Signal.IsPlain : Signal → Prop
  | fault e => e.span = none
  | overflow _ => True
  | thrown _ | failure _ | exhausted => False

/-- The same, or a failure of the host. -/
def Signal.IsRaw : Signal → Prop
  | failure _ => True
  | s => s.IsPlain

/-- Any value but a function that the host added. -/
def Value.IsStandard : Value → Prop
  | .native (.foreign _ _) => False
  | _ => True

namespace Eval

/-- The computation is left with plain signals only. -/
def Plain {α : Type} (x : Eval α) : Prop := ∀ m s m', x m = .error s m' → s.IsPlain

/-- The computation is left with plain signals and failures of the host only. -/
def Raw {α : Type} (x : Eval α) : Prop := ∀ m s m', x m = .error s m' → s.IsRaw

section

variable {α β : Type}

theorem plain_of_ok {x : Eval α} (h : ∀ m, ∃ a m', x m = .ok a m') : Plain x := by
  intro m s m' hx
  obtain ⟨a, m'', hOk⟩ := h m
  rw [hOk] at hx
  cases hx

theorem plain_pure (a : α) : Plain (pure a) :=
  plain_of_ok fun m => ⟨a, m, rfl⟩

theorem plain_throw {s : Signal} (h : s.IsPlain) : Plain (throw s : Eval α) := by
  intro m s' m' hx
  cases hx
  exact h

theorem plain_fault (f : Fault) : Plain (fault f : Eval α) :=
  plain_throw rfl

theorem plain_overflow : Plain (overflow : Eval α) :=
  plain_throw trivial

theorem plain_consult (f : Heap → Except Fault α) : Plain (consult f) := by
  intro m s m' hx
  unfold consult at hx
  split at hx
  · cases hx
  · cases hx
    rfl

theorem plain_bind {x : Eval α} {f : α → Eval β} (hx : Plain x) (hf : ∀ a, Plain (f a)) :
    Plain (x >>= f) := by
  intro m s m' h
  change EStateM.bind x f m = _ at h
  unfold EStateM.bind at h
  split at h
  · exact hf _ _ _ _ h
  · next hError =>
    cases h
    exact hx _ _ _ hError

theorem plain_ite {c : Prop} [Decidable c] {x y : Eval α} (hx : Plain x) (hy : Plain y) :
    Plain (if c then x else y) := by
  by_cases h : c
  · rw [if_pos h]
    exact hx
  · rw [if_neg h]
    exact hy

end

variable {cfg : Settings}

/-! ## Scopes -/

theorem plain_lookup (env : Env) (name : String) : Plain (lookup env name) :=
  plain_consult _

theorem plain_declare (env : Env) (name : String) (v : Value) (constant : Bool) :
    Plain (declare env name v constant) :=
  plain_bind (plain_consult _) fun _ => plain_of_ok fun _ => ⟨_, _, rfl⟩

theorem plain_assign (env : Env) (name : String) (v : Value) : Plain (assign env name v) :=
  plain_bind (plain_consult _) fun _ => plain_of_ok fun _ => ⟨_, _, rfl⟩

theorem plain_enter (env : Env) (names : Scope) : Plain (enter env names) :=
  plain_of_ok fun _ => ⟨_, _, rfl⟩

/-! ## Operators -/

theorem plain_number (x : Float) : Plain (number x) :=
  plain_of_ok fun _ => ⟨_, _, rfl⟩

theorem plain_display (depth : Nat) (v : Value) : Plain (display cfg depth v) := by
  refine plain_bind (plain_of_ok fun _ => ⟨_, _, rfl⟩) fun h => ?_
  split
  · exact plain_pure _
  · exact plain_overflow

theorem plain_debug (message : String) : Plain (debug cfg message) :=
  plain_of_ok fun _ => ⟨_, _, rfl⟩

theorem plain_equal (depth : Nat) (a b : Value) : Plain (equal cfg depth a b) := by
  refine plain_bind (plain_of_ok fun _ => ⟨_, _, rfl⟩) fun h => ?_
  split
  · exact plain_pure _
  · exact plain_overflow

theorem plain_unary (op : UnaryOp) (v : Value) : Plain (unary op v) := by
  unfold unary
  split
  · exact plain_pure _
  · split
    · exact plain_number _
    · exact plain_fault _

theorem plain_computed (depth : Nat) (op : BinaryOp) (l r : Value) :
    Plain (computed cfg depth op l r) := by
  have hNumbers : ∀ {x y : Float} {z : Eval Value}, onNumbers op x y = some z → Plain z := by
    intro x y z h
    unfold onNumbers at h
    split at h
    · cases h
      exact plain_number _
    · obtain ⟨b, -, rfl⟩ := Option.map_eq_some_iff.mp h
      exact plain_pure _
  have hStrings : ∀ {z : Eval Value}, onStrings cfg depth op l r = some z → Plain z := by
    intro z h
    unfold onStrings at h
    split at h
    · cases h
      exact plain_bind (plain_display _ _) fun _ =>
        plain_bind (plain_display _ _) fun _ => plain_pure _
    · obtain ⟨b, -, rfl⟩ := Option.map_eq_some_iff.mp h
      exact plain_pure _
    · cases h
  unfold computed
  dsimp only
  split
  · next z h =>
    split at h
    · exact hNumbers h
    · split at h
      · exact hStrings h
      · cases h
  · exact plain_fault _

theorem plain_binary (depth : Nat) (op : BinaryOp) (l r : Value) :
    Plain (binary cfg depth op l r) := by
  unfold binary
  split
  · exact plain_bind (plain_equal _ _ _) fun _ => plain_pure _
  · exact plain_bind (plain_equal _ _ _) fun _ => plain_pure _
  · exact plain_computed _ _ _ _

/-! ## Members and indices -/

theorem plain_readMember (object : Value) (name : String) : Plain (readMember object name) := by
  unfold readMember
  split
  · exact plain_of_ok fun _ => ⟨_, _, rfl⟩
  · exact plain_fault _

theorem plain_memberForCall (object : Value) (name : String) :
    Plain (memberForCall object name) := by
  unfold memberForCall
  split
  · refine plain_bind (plain_of_ok fun _ => ⟨_, _, rfl⟩) fun h => ?_
    split
    · exact plain_pure _
    · exact plain_fault _
  · exact plain_fault _

theorem plain_memberTarget (object : Value) (name : String) :
    Plain (memberTarget object name) := by
  unfold memberTarget
  split
  · exact plain_pure _
  · exact plain_fault _

theorem plain_superMethod (env : Env) (name : String) : Plain (superMethod env name) := by
  refine plain_bind (plain_lookup _ _) fun parent => plain_bind (plain_lookup _ _) fun self => ?_
  split
  · split
    · exact plain_pure _
    · exact plain_fault _
  · exact plain_fault _

theorem plain_position (index : Value) (length : Nat) : Plain (position index length) := by
  unfold position
  split
  · exact plain_ite (plain_pure _) (plain_fault _)
  · exact plain_fault _

theorem plain_readIndex (object index : Value) : Plain (readIndex object index) := by
  unfold readIndex
  split
  · refine plain_bind (plain_of_ok fun _ => ⟨_, _, rfl⟩) fun h => ?_
    exact plain_bind (plain_position _ _) fun _ => plain_pure _
  · exact plain_bind (plain_position _ _) fun _ => plain_pure _
  · exact plain_fault _

theorem plain_indexTarget (object index : Value) : Plain (indexTarget object index) := by
  unfold indexTarget
  split
  · refine plain_bind (plain_of_ok fun _ => ⟨_, _, rfl⟩) fun h => ?_
    exact plain_bind (plain_position _ _) fun _ => plain_pure _
  · exact plain_fault _

/-! ## Native functions -/

theorem plain_displayAll (depth : Nat) (vs : List Value) : Plain (displayAll cfg depth vs) := by
  induction vs with
  | nil => exact plain_pure _
  | cons v rest ih =>
    exact plain_bind (plain_display _ _) fun _ => plain_bind ih fun _ => plain_pure _

theorem plain_toNumber (v : Value) : Plain (toNumber v) := by
  unfold toNumber
  split
  · exact plain_pure _
  · exact plain_pure _
  · split
    · exact plain_number _
    · exact plain_fault _
  · exact plain_fault _

theorem plain_length (v : Value) : Plain (length v) := by
  unfold length
  split
  · exact plain_pure _
  · exact plain_of_ok fun _ => ⟨_, _, rfl⟩
  · exact plain_fault _

theorem Plain.raw {α : Type} {x : Eval α} (h : Plain x) : Raw x := by
  intro m s m' hx
  have hPlain := h m s m' hx
  cases s with
  | failure => trivial
  | fault | thrown | overflow | exhausted => exact hPlain

theorem raw_onConsole {α : Type} (f : Console → Except String α × Console) :
    Raw (onConsole f) := by
  intro m s m' h
  unfold onConsole at h
  split at h
  · cases h
  · cases h
    trivial

theorem raw_write (text : String) : Raw (write text) := raw_onConsole _

theorem raw_readLine : Raw readLine := raw_onConsole _

theorem raw_reply (r : Reply) : Raw (reply r) := by
  intro m s m' h
  cases r with
  | value | number => cases h
  | fault | range | failure =>
    cases h
    trivial

theorem raw_request (depth : Nat) (q : Request) : Raw (request cfg depth q) := by
  cases q with
  | write text => exact raw_write text
  | readLine => exact raw_readLine
  | display v => exact (plain_display _ _).raw
  | number x => exact (plain_number _).raw
  | elements | field | newArray | setElement | setField =>
    exact (plain_of_ok fun _ => ⟨_, _, rfl⟩).raw

/-! ## Definitions and calls -/

theorem plain_defineFunc (env : Env) (f : FuncDef) : Plain (defineFunc env f) :=
  plain_bind (plain_of_ok fun _ => ⟨_, _, rfl⟩) fun _ => plain_declare _ _ _ _

theorem plain_superclass (env : Env) (c : ClassDef) : Plain (superclass env c) := by
  unfold superclass
  split
  · exact plain_pure _
  · refine plain_bind (plain_lookup _ _) fun v => ?_
    split
    · exact plain_pure _
    · exact plain_fault _

theorem plain_methods (env : Env) (fs : List FuncDef) (done : Table FuncId) :
    Plain (methods env fs done) := by
  induction fs generalizing done with
  | nil => exact plain_pure _
  | cons f rest ih => exact plain_bind (plain_of_ok fun _ => ⟨_, _, rfl⟩) fun _ => ih _

theorem plain_defineClass (env : Env) (c : ClassDef) : Plain (defineClass env c) := by
  refine plain_bind (plain_superclass env c) fun parent => ?_
  have hRest : ∀ methodEnv, Plain (do
      let table ← methods methodEnv c.methods []
      let value ← newClass c.id.name parent table
      declare env c.id.name (.cls value) false) := fun methodEnv =>
    plain_bind (plain_methods methodEnv c.methods []) fun _ =>
      plain_bind (plain_of_ok fun _ => ⟨_, _, rfl⟩) fun _ => plain_declare env _ _ _
  cases parent with
  | none => exact hRest env
  | some p => exact plain_bind (plain_enter _ _) hRest

theorem plain_checkCall (f : FuncDef) (received : Nat) : Plain (checkCall cfg f received) := by
  refine plain_ite (plain_fault _) ?_
  exact plain_bind (plain_of_ok fun _ => ⟨_, _, rfl⟩) fun _ =>
    plain_ite (plain_fault _) (plain_pure _)

theorem plain_enterCall (closure : Closure) (self : Option ObjectId) (args : List Value) :
    Plain (enterCall closure self args) := by
  cases self with
  | none => exact plain_bind (plain_pure _) fun _ => plain_enter _ _
  | some o => exact plain_bind (plain_enter _ _) fun _ => plain_enter _ _

end Eval

end Tern
