import Tern.Proofs.Machine.Course

/-!
# What steps hand on

A step ends with a signal when one leaves it, or when it returns a throw. Most signals come up in
a part of the step: expressions break off at once, calls hand what their body throws on to their
callers, and statements end with it. The others come up in the operations of the step itself, as
faults without a place or as throws without an error. In the end an expression gives its place to
a fault that has none, and a statement makes a throw of it.

* `Task.signal?`: the signal that a task ends with;
* `Task.core`, `Task.handOn`: a step is its core and what becomes of the signals that leave it;
* `Relays`: a computation ends with a signal just when a part of it does, new signals apart;
* `relays_core`: every core relays signals, but for those of `try` statements;
* `signal_of_needs`: a step hands on the signals of its parts, unless a `try` statement has the
  part in its body.
-/

namespace Tern

/-! ## Signals -/

/-- The throw that a completion is. -/
def Completion.throw? : Completion → Option Thrown
  | throw t => some t
  | _ => none

/-- The signal that a computation ends with: the one that leaves it, or the throw in its result,
where `throw?` finds one. -/
def signal? {α : Type} (throw? : α → Option Thrown) :
    EStateM.Result Signal Machine α → Option Signal
  | .ok a _ => (throw? a).map .thrown
  | .error s _ => some s

namespace Signal

/-- What a statement at a place ends with for a signal. -/
def caught (span : Option Span) (s : Signal) : Signal :=
  match s.toThrown? span with
  | some t => .thrown t
  | none => s

/-- A signal that comes straight from an operation: it has no place yet, or no error. -/
def Fresh : Signal → Prop
  | fault e => e.span = none
  | thrown t => t.error = none
  | overflow _ | failure _ | exhausted => True

theorem IsRaw.fresh {s : Signal} (h : s.IsRaw) : s.Fresh := by
  cases s with
  | fault e => exact h
  | overflow | failure => trivial
  | thrown | exhausted => cases h

end Signal

namespace Task

/-- The throw in a result of a task; expressions and calls throw by signals only. -/
def throw? : (t : Task) → t.Result → Option Thrown
  | evaluate .. | evaluateAll .. | apply .. | applyFunc .. => fun _ => none
  | execute .. | executeSimple .. | executeAll .. | executeElifs .. | runWhile .. | runFor .. =>
    Completion.throw?

/-- The signal that a task ends with. -/
def signal? (t : Task) (r : EStateM.Result Signal Machine t.Result) : Option Signal :=
  Tern.signal? t.throw? r

/-- What a task ends with for a signal that comes up in it. -/
def handOn : Task → Signal → Signal
  | evaluate _ _ e, s => s.locate e.span
  | execute _ _ st, s => s.caught st.span
  | _, s => s

/-- The step that does a task, up to the point where signals leave it. -/
def core (cfg : Settings) (inner : Worker) : (t : Task) → Eval t.Result
  | evaluate depth env e =>
    if cfg.isFull depth then Eval.overflow else Step.expr cfg inner depth env e
  | execute depth env s =>
    if cfg.isFull depth then Eval.overflow else Step.stmt cfg inner depth env s
  | t => step cfg inner t

end Task

section

variable {α : Type}

theorem exists_error {x : Eval α} {m : Machine} {s : Signal}
    (h : signal? (fun _ => none) (x m) = some s) : ∃ m', x m = .error s m' := by
  cases hx : x m with
  | ok a m' =>
    rw [hx] at h
    cases h
  | error s' m' =>
    rw [hx] at h
    cases h
    exact ⟨m', rfl⟩

theorem signal?_located (span : Option Span) (x : Eval α) (m : Machine) :
    signal? (fun _ => none) (Eval.located span x m) =
      (signal? (fun _ => none) (x m)).map (·.locate span) := by
  unfold Eval.located
  cases x m <;> rfl

theorem signal?_guarded (span : Option Span) (x : Eval Completion) (m : Machine) :
    signal? Completion.throw? (Eval.guarded span x m) =
      (signal? Completion.throw? (x m)).map (·.caught span) := by
  unfold Eval.guarded
  cases x m with
  | ok c m' => cases c <;> rfl
  | error s m' =>
    change _ = some (s.caught span)
    unfold Signal.caught
    cases hThrown : s.toThrown? span with
    | none => simp only [hThrown, signal?]
    | some t => simp only [hThrown, signal?, Completion.throw?, Option.map_some]

end

/-- A step ends with the signals of its core, handed on. -/
theorem Task.signal?_step (cfg : Settings) (inner : Worker) (t : Task) (m : Machine) :
    t.signal? (step cfg inner t m) = (t.signal? (t.core cfg inner m)).map t.handOn := by
  cases t with
  | evaluate depth env e =>
    change Tern.signal? _ ((if cfg.isFull depth then Eval.overflow else
      Eval.located e.span (Step.expr cfg inner depth env e)) m) =
        Option.map _ (Tern.signal? _ ((if cfg.isFull depth then Eval.overflow else
          Step.expr cfg inner depth env e) m))
    by_cases hFull : cfg.isFull depth = true
    · rw [if_pos hFull, if_pos hFull]
      rfl
    · rw [if_neg hFull, if_neg hFull]
      exact signal?_located e.span _ m
  | execute depth env s => exact signal?_guarded s.span _ m
  | _ => exact (congrFun Option.map_id _).symm

/-- A step needs just what its core needs. -/
theorem Task.breaksAt_core {cfg : Settings} {inner : Worker} {t u : Task} {m k : Machine} :
    BreaksAt (fun inner => step cfg inner t) inner m u k ↔
      BreaksAt (fun inner => t.core cfg inner) inner m u k := by
  cases t with
  | evaluate depth env e =>
    change BreaksAt (fun inner => if cfg.isFull depth then Eval.overflow else
      Eval.located e.span (Step.expr cfg inner depth env e)) inner m u k ↔
        BreaksAt (fun inner => if cfg.isFull depth then Eval.overflow else
          Step.expr cfg inner depth env e) inner m u k
    by_cases hFull : cfg.isFull depth = true
    · simp only [if_pos hFull]
    · simp only [if_neg hFull]
      exact ⟨BreaksAt.of_located, fun h message =>
        (h message).imp fun _ => Eval.located_failure e.span⟩
  | execute depth env s =>
    exact ⟨BreaksAt.of_guarded, fun h message =>
      (h message).imp fun _ => Eval.guarded_failure s.span⟩
  | _ => exact Iff.rfl

/-! ## Computations that relay -/

/-- A computation that ends with every signal that one of its parts ends with, and with no others
but fresh ones. -/
structure Relays {α : Type} (throw? : α → Option Thrown) (f : Worker → Eval α) : Prop where
  script : Scripted (.ofOrder fun _ _ => True) Discipline.anyTask f
  passes : ∀ {inner m t k s}, BreaksAt f inner m t k → t.signal? (inner t k) = some s →
    signal? throw? (f inner m) = some s
  stems : ∀ {inner m s}, signal? throw? (f inner m) = some s →
    (∃ t k, BreaksAt f inner m t k ∧ t.signal? (inner t k) = some s) ∨ s.Fresh

namespace Relays

variable {α β : Type} {throw? : α → Option Thrown} {throw?' : β → Option Thrown}
  {f : Worker → Eval α}

/-- Operations have no parts. -/
theorem own {x : Eval α} (fresh : ∀ m s, signal? throw? (x m) = some s → s.Fresh) :
    Relays throw? fun _ => x where
  script := .own fun _ _ => ⟨trivial, trivial⟩
  passes hBreaks _ := absurd hBreaks (BreaksAt.not_of_const fun _ => rfl)
  stems hSignal := .inr (fresh _ _ hSignal)

theorem raw {x : Eval α} (h : x.Raw) : Relays (fun _ => none) fun _ => x :=
  own fun m s hSignal => by
    obtain ⟨m', hx⟩ := exists_error hSignal
    exact (h m s m' hx).fresh

theorem op {x : Eval α} (plain : x.Plain) : Relays (fun _ => none) fun _ => x := raw plain.raw

theorem done {a : α} (h : throw? a = none) : Relays throw? fun _ => (pure a : Eval α) :=
  own fun m s hSignal => by
    change (throw? a).map Signal.thrown = some s at hSignal
    rw [h] at hSignal
    cases hSignal

theorem ask (t : Task) : Relays t.throw? fun inner => inner t where
  script := .ask trivial
  passes hBreaks hSignal := by
    obtain ⟨rfl, rfl⟩ := hBreaks.eq_of_ask
    exact hSignal
  stems {inner m s} hSignal :=
    .inl ⟨t, m, fun message => ⟨m, Worker.interrupt_self inner t m message⟩, hSignal⟩

/-- One computation after another, where nothing else happens once the first has thrown. -/
theorem bind {g : α → Worker → Eval β} (first : Relays throw? f)
    (script : ∀ a, Scripted (.ofOrder fun _ _ => True) Discipline.anyTask (g a))
    (after : ∀ a, throw? a = none → Relays throw?' (g a))
    (stops : ∀ {a t}, throw? a = some t → ∀ inner m,
      signal? throw?' (g a inner m) = some (.thrown t)) :
    Relays throw?' fun inner => f inner >>= (g · inner) where
  script := .bind first.script script
  passes := by
    intro inner m t k s hBreaks hSignal
    change signal? throw?' ((f inner >>= (g · inner)) m) = some s
    rw [Eval.bind_eq]
    rcases hBreaks.of_bind first.script with hFirst | ⟨-, a, m', hf, hAfter⟩
    · have hEnd := first.passes hFirst hSignal
      cases hf : f inner m with
      | ok a m' =>
        rw [hf] at hEnd
        obtain ⟨t', hThrow, rfl⟩ := Option.map_eq_some_iff.mp hEnd
        exact stops hThrow inner m'
      | error s m' =>
        rw [hf] at hEnd
        exact hEnd
    · rw [hf]
      cases hThrow : throw? a with
      | none => exact (after a hThrow).passes hAfter hSignal
      | some t' =>
        -- then nothing comes after, so no part is needed there
        obtain ⟨m'', hEnd⟩ := hAfter ""
        have hStops := stops hThrow (inner.interrupt t k "") m'
        rw [hEnd] at hStops
        cases hStops
  stems := by
    intro inner m s hSignal
    change signal? throw?' ((f inner >>= (g · inner)) m) = some s at hSignal
    rw [Eval.bind_eq] at hSignal
    have hLeft : signal? throw? (f inner m) = some s →
        (∃ t k, BreaksAt (fun inner => f inner >>= (g · inner)) inner m t k ∧
          t.signal? (inner t k) = some s) ∨ s.Fresh := fun hFirst =>
      (first.stems hFirst).imp_left fun ⟨t, k, hBreaks, hPart⟩ =>
        ⟨t, k, BreaksAt.bind_left hBreaks, hPart⟩
    cases hf : f inner m with
    | error s' m' =>
      rw [hf] at hSignal hLeft
      exact hLeft hSignal
    | ok a m' =>
      rw [hf] at hSignal hLeft
      cases hThrow : throw? a with
      | none =>
        refine ((after a hThrow).stems hSignal).imp_left fun ⟨t, k, hBreaks, hPart⟩ => ?_
        exact ⟨t, k, BreaksAt.bind_right first.script hf hBreaks, hPart⟩
      | some t =>
        refine hLeft ?_
        have hStops := (stops hThrow inner m').symm.trans hSignal
        change (throw? a).map Signal.thrown = some s
        rw [hThrow]
        exact hStops

/-- What does not throw by its result needs no care. -/
theorem andThen {g : α → Worker → Eval β} (first : Relays (fun _ => none) f)
    (after : ∀ a, Relays throw?' (g a)) :
    Relays throw?' fun inner => f inner >>= (g · inner) :=
  first.bind (fun a => (after a).script) (fun a _ => after a) fun hNone => nomatch hNone

/-- After a statement, where a throw is what it all ends with. -/
theorem thenUnlessThrown {f : Worker → Eval Completion} {g : Completion → Worker → Eval Completion}
    (first : Relays Completion.throw? f)
    (after : ∀ c, c.throw? = none → Relays Completion.throw? (g c))
    (ends : ∀ t, g (.throw t) = fun _ => pure (.throw t)) :
    Relays Completion.throw? fun inner => f inner >>= (g · inner) := by
  refine first.bind (fun c => ?_) after fun {c t} hThrow inner m => ?_
  · cases c with
    | throw t =>
      rw [ends]
      exact .own fun _ _ => ⟨trivial, trivial⟩
    | _ => exact (after _ rfl).script
  · cases c with
    | throw t' =>
      cases hThrow
      rw [ends]
      rfl
    | _ => cases hThrow

theorem deeper (inside : Relays throw? f) :
    Relays throw? fun inner => Eval.withCallDepth (f inner) := by
  have hSame : ∀ inner m, signal? throw? (Eval.withCallDepth (f inner) m) =
      signal? throw? (f inner (m.atDepth (m.callDepth + 1))) := by
    intro inner m
    unfold Eval.withCallDepth Machine.atDepth
    cases f inner { m with callDepth := m.callDepth + 1 } <;> rfl
  refine ⟨.deeper inside.script, fun {inner m t k s} hBreaks hSignal => ?_,
    fun {inner m s} hSignal => ?_⟩
  · exact (hSame inner m).trans (inside.passes hBreaks.of_withCallDepth hSignal)
  · refine (inside.stems ((hSame inner m).symm.trans hSignal)).imp_left ?_
    rintro ⟨t, k, hBreaks, hPart⟩
    refine ⟨t, k, fun message => ?_, hPart⟩
    obtain ⟨m', hEnd⟩ := hBreaks message
    exact ⟨_, Eval.withCallDepth_failure hEnd⟩

theorem ite {c : Prop} [Decidable c] {f g : Worker → Eval α} (hf : c → Relays throw? f)
    (hg : ¬c → Relays throw? g) :
    Relays throw? fun inner => if c then f inner else g inner := by
  by_cases h : c
  · simp only [if_pos h]
    exact hf h
  · simp only [if_neg h]
    exact hg h

end Relays

/-! ## Steps -/

open Eval

namespace Step

variable (cfg : Settings)

theorem relays_expr (depth : Nat) (env : Env) (e : Expr) :
    Relays (fun _ => none) fun inner => Step.expr cfg inner depth env e := by
  have hAlloc : ∀ {α : Type} (g : Heap → α × Heap), (alloc g).Plain :=
    fun g => plain_of_ok fun _ => ⟨_, _, rfl⟩
  have hUpdate : ∀ g : Heap → Heap, (update g).Plain := fun g => plain_of_ok fun _ => ⟨_, _, rfl⟩
  cases e with
  | string | boolean | null => exact .done rfl
  | number => exact .op (plain_number _)
  | array es s =>
    exact .andThen (.ask (.evaluateAll ..)) fun vs => .andThen (.op (hAlloc _)) fun id => .done rfl
  | name | this => exact .op (plain_lookup _ _)
  | super => exact .op (plain_superMethod _ _)
  | unary op e s => exact .andThen (.ask (.evaluate ..)) fun v => .op (plain_unary op v)
  | binary op l r s =>
    exact .andThen (.ask (.evaluate ..)) fun a => .andThen (.ask (.evaluate ..)) fun b =>
      .op (plain_binary _ op a b)
  | logical op l r s =>
    refine .andThen (.ask (.evaluate ..)) fun a => ?_
    split
    · exact .done rfl
    · exact .done rfl
    · exact .andThen (.ask (.evaluate ..)) fun b => .done rfl
  | call f args s =>
    have hPlain : Relays (fun _ => none) (fun inner => do
        let callee ← inner (.evaluate (depth + 1) env f)
        let vs ← inner (.evaluateAll (depth + 1) env args)
        inner (.apply (depth + 1) callee vs)) :=
      .andThen (.ask (.evaluate ..)) fun callee => .andThen (.ask (.evaluateAll ..)) fun vs =>
        .ask (.apply ..)
    cases f with
    | member o id s =>
      refine .andThen (.ask (.evaluate ..)) fun object => ?_
      refine .andThen (.op (plain_memberForCall _ _)) fun callee => ?_
      exact .andThen (.ask (.evaluateAll ..)) fun vs => .ask (.apply ..)
    | _ => exact hPlain
  | member o id s => exact .andThen (.ask (.evaluate ..)) fun object => .op (plain_readMember _ _)
  | setMember o id v s =>
    refine .andThen (.ask (.evaluate ..)) fun object => ?_
    refine .andThen (.op (plain_memberTarget _ _)) fun i => .andThen (.ask (.evaluate ..)) ?_
    exact fun value => .andThen (.op (hUpdate _)) fun _ => .done rfl
  | index o i s =>
    exact .andThen (.ask (.evaluate ..)) fun object => .andThen (.ask (.evaluate ..)) fun i =>
      .op (plain_readIndex _ _)
  | setIndex o i v s =>
    refine .andThen (.ask (.evaluate ..)) fun object => .andThen (.ask (.evaluate ..)) fun i => ?_
    refine .andThen (.op (plain_indexTarget _ _)) ?_
    rintro ⟨id, position⟩
    exact .andThen (.ask (.evaluate ..)) fun value => .andThen (.op (hUpdate _)) fun _ => .done rfl
  | assign t v s =>
    exact .andThen (.ask (.evaluate ..)) fun value => .andThen (.op (plain_assign _ _ _)) fun _ =>
      .done rfl

/-- A block in a scope of its own. -/
theorem relays_block (depth : Nat) (env : Env) (names : Scope) (body : List Stmt) :
    Relays Completion.throw? (fun inner => do
      let env ← Eval.enter env names
      inner (.executeAll depth env body)) :=
  .andThen (.op (plain_enter env names)) fun _ => .ask (.executeAll ..)

/-- The `throw` statement is where a throw without an error comes up. -/
theorem relays_stmt (depth : Nat) (env : Env) (s : Stmt)
    (hTry : ∀ body param handler span, s ≠ .tryCatch body param handler span) :
    Relays Completion.throw? fun inner => Step.stmt cfg inner depth env s := by
  cases s with
  | simple s => exact .ask (.executeSimple ..)
  | func f => exact .andThen (.op (plain_defineFunc env f)) fun _ => .done rfl
  | cls c => exact .andThen (.op (plain_defineClass env c)) fun _ => .done rfl
  | block b => exact relays_block _ env [] b.body
  | ifElse condition body elifs otherwise span =>
    refine .andThen (.ask (.evaluate ..)) fun v => ?_
    exact .ite (fun _ => relays_block _ env [] body.body) fun _ => .ask (.executeElifs ..)
  | whileLoop => exact .ask (.runWhile ..)
  | forLoop start condition update body span =>
    refine .andThen (.op (plain_enter env [])) fun loopEnv => ?_
    cases start with
    | none => exact .ask (.runFor ..)
    | some start =>
      refine .thenUnlessThrown (.ask (.execute ..)) (fun c hThrow => ?_) fun _ => rfl
      cases c with
      | normal => exact .ask (.runFor ..)
      | _ => exact .done hThrow
  | breakLoop | continueLoop => exact .done rfl
  | ret value =>
    cases value with
    | none => exact .done rfl
    | some e => exact .andThen (.ask (.evaluate ..)) fun v => .done rfl
  | tryCatch body param handler span => exact absurd rfl (hTry body param handler span)
  | throw e span =>
    refine .andThen (.ask (.evaluate ..)) fun v => .own fun m s hSignal => ?_
    cases hSignal
    rfl

theorem relays_executeSimple (depth : Nat) (env : Env) (s : Simple) :
    Relays Completion.throw? fun inner => step cfg inner (.executeSimple depth env s) := by
  have hDeclare : ∀ id v constant, Relays Completion.throw? (fun _ => do
      Eval.declare env id v constant
      pure .normal) := fun id v constant =>
    .andThen (.op (plain_declare env id v constant)) fun _ => .done rfl
  cases s with
  | var id value span =>
    cases value with
    | none => exact hDeclare _ _ _
    | some e => exact .andThen (.ask (.evaluate ..)) fun v => hDeclare _ _ _
  | const => exact .andThen (.ask (.evaluate ..)) fun v => hDeclare _ _ _
  | expr => exact .andThen (.ask (.evaluate ..)) fun v => .done rfl

theorem relays_executeAll (depth : Nat) (env : Env) (body : List Stmt) :
    Relays Completion.throw? fun inner => step cfg inner (.executeAll depth env body) := by
  cases body with
  | nil => exact .done rfl
  | cons s rest =>
    refine .thenUnlessThrown (.ask (.execute ..)) (fun c hThrow => ?_) fun _ => rfl
    cases c with
    | normal => exact .ask (.executeAll ..)
    | _ => exact .done hThrow

theorem relays_executeElifs (depth : Nat) (env : Env) (clauses : List ElifClause)
    (otherwise : Option Block) :
    Relays Completion.throw? fun inner =>
      step cfg inner (.executeElifs depth env clauses otherwise) := by
  cases clauses with
  | nil =>
    cases otherwise with
    | none => exact .done rfl
    | some b => exact relays_block _ env [] b.body
  | cons clause rest =>
    refine .andThen (.ask (.evaluate ..)) fun v => ?_
    exact .ite (fun _ => relays_block _ env [] clause.body.body) fun _ => .ask (.executeElifs ..)

theorem relays_runWhile (depth : Nat) (env : Env) (condition : Expr) (body : Block) :
    Relays Completion.throw? fun inner =>
      step cfg inner (.runWhile depth env condition body) := by
  refine .andThen (.ask (.evaluate ..)) fun v => .ite (fun _ => ?_) fun _ => .done rfl
  refine .andThen (.op (plain_enter env [])) fun bodyEnv =>
    .thenUnlessThrown (.ask (.executeAll ..)) (fun c hThrow => ?_) fun _ => rfl
  cases c with
  | breakLoop | ret => exact .done rfl
  | throw => cases hThrow
  | normal | continueLoop => exact .ask (.runWhile ..)

theorem relays_runFor (depth : Nat) (env : Env) (condition update : Option Expr) (body : Block) :
    Relays Completion.throw? fun inner =>
      step cfg inner (.runFor depth env condition update body) := by
  have hCondition : Relays (fun _ => none) fun inner => Step.holds inner depth env condition := by
    cases condition with
    | none => exact .done rfl
    | some e => exact .andThen (.ask (.evaluate ..)) fun v => .done rfl
  refine .andThen hCondition fun b => .ite (fun _ => ?_) fun _ => .done rfl
  refine .andThen (.op (plain_enter env [])) fun bodyEnv =>
    .thenUnlessThrown (.ask (.executeAll ..)) (fun c hThrow => ?_) fun _ => rfl
  cases c with
  | breakLoop | ret => exact .done rfl
  | throw => cases hThrow
  | normal | continueLoop =>
    cases update with
    | none => exact .ask (.runFor ..)
    | some e => exact .andThen (.ask (.evaluate ..)) fun v => .ask (.runFor ..)

/-- A function of the host ends with what leaves a call that it makes. Otherwise what it ends with
is new. -/
theorem relays_routine (depth : Nat) (r : Routine) : Relays (fun _ => none) fun inner =>
    Eval.routine cfg (fun callee args => inner (.apply (depth + 1) callee args)) depth r := by
  induction r with
  | reply r => exact .raw (raw_reply r)
  | ask q next ih => exact .andThen (.raw (raw_request depth q)) fun answer => ih answer
  | call callee args next ih => exact .andThen (.ask (.apply ..)) fun v => ih v

theorem relays_callNative (depth : Nat) (f : Native) (args : List Value) :
    Relays (fun _ => none) fun inner =>
      Eval.callNative cfg (fun callee args => inner (.apply (depth + 1) callee args)) depth f
        args := by
  have hRun : Relays (fun _ => none) fun inner =>
      Eval.runNative cfg (fun callee args => inner (.apply (depth + 1) callee args)) depth f
        args := by
    cases f with
    | foreign name arity => exact relays_routine cfg depth (cfg.host name args)
    | print =>
      refine .andThen (.op (plain_displayAll _ _)) fun texts => ?_
      exact .andThen (.raw (raw_write _)) fun _ => .done rfl
    | input =>
      refine .andThen (.op (plain_display _ _)) fun text => .andThen (.raw (raw_write _)) fun _ => ?_
      exact .andThen (.raw raw_readLine) fun line => .done rfl
    | type => exact .done rfl
    | str => exact .andThen (.op (plain_display _ _)) fun text => .done rfl
    | num => exact .op (plain_toNumber _)
    | len => exact .op (plain_length _)
  unfold Eval.callNative
  cases f.arity with
  | none => exact hRun
  | some n => exact .ite (fun _ => hRun) fun _ => .op (plain_fault _)

theorem relays_apply (depth : Nat) (callee : Value) (args : List Value) :
    Relays (fun _ => none) fun inner => step cfg inner (.apply depth callee args) := by
  cases callee with
  | func id | bound id self => exact .ask (.applyFunc ..)
  | native f => exact relays_callNative cfg depth f args
  | cls c =>
    refine .andThen (.op (plain_of_ok fun _ => ⟨_, _, rfl⟩)) fun id => ?_
    cases c.findMethod? Eval.initializerName with
    | some f => exact .andThen (.ask (.applyFunc ..)) fun _ => .done rfl
    | none => exact .ite (fun _ => .done rfl) fun _ => .op (plain_fault _)
  | _ => exact .op (plain_fault _)

/-- A body that throws makes the call throw. -/
theorem relays_applyFunc (depth : Nat) (id : FuncId) (self : Option ObjectId)
    (args : List Value) :
    Relays (fun _ => none) fun inner => step cfg inner (.applyFunc depth id self args) := by
  refine .andThen (.op (plain_of_ok fun _ => ⟨_, _, rfl⟩)) fun h => ?_
  refine .andThen (.op (plain_checkCall _ _)) fun _ => ?_
  refine .andThen (.op (plain_enterCall _ _ _)) fun env => ?_
  refine .bind (.deeper (.ask (.executeAll ..))) (fun c => .own fun _ _ => ⟨trivial, trivial⟩) ?_ ?_
  · intro c hThrow
    cases c with
    | throw => cases hThrow
    | _ => exact .done rfl
  · intro c t hThrow inner m
    cases c with
    | throw t' =>
      cases hThrow
      rfl
    | _ => cases hThrow

end Step

/-! ## The `try` statement -/

/-- The machine with one more scope, which is empty. -/
abbrev Machine.entered (m : Machine) : Machine := m.withHeap (m.heap.newScope []).2

/-- A block in the scope that is made next. -/
abbrev Task.inScope (depth : Nat) (env : Env) (m : Machine) (b : Block) : Task :=
  .executeAll (depth + 1) (env.extend m.heap.scopes.size) b.body

namespace Step

variable {cfg : Settings}

/-- What follows the body of a `try` statement. -/
def afterBody (cfg : Settings) (depth : Nat) (env : Env) (param : Ident) (handler : Block)
    (c : Completion) (inner : Worker) : Eval Completion :=
  match c with
  | .throw t => do
    let text ← Eval.display cfg (depth + 1) t.value
    Eval.debug cfg ("caught " ++ text ++ " in '" ++ param.name ++ "'")
    let catchEnv ← Eval.enter env [(param.name, ⟨t.value, false⟩)]
    inner (.executeAll (depth + 1) catchEnv handler.body)
  | c => pure c

theorem stmt_tryCatch (inner : Worker) (depth : Nat) (env : Env) (body : Block) (param : Ident)
    (handler : Block) (span : Option Span) :
    Step.stmt cfg inner depth env (.tryCatch body param handler span) =
      Eval.enter env [] >>= fun tryEnv =>
        inner (.executeAll (depth + 1) tryEnv body.body) >>= fun c =>
          afterBody cfg depth env param handler c inner := by
  refine congrArg (Eval.enter env [] >>= ·) (funext fun tryEnv => ?_)
  refine congrArg (inner (.executeAll (depth + 1) tryEnv body.body) >>= ·) (funext fun c => ?_)
  cases c <;> rfl

/-- A `try` statement, once it has made the scope of its body. -/
theorem step_tryCatch {inner : Worker} {depth : Nat} {env : Env} {body : Block} {param : Ident}
    {handler : Block} {span : Option Span} {m : Machine} (hRoom : cfg.isFull depth = false) :
    step cfg inner (.execute depth env (.tryCatch body param handler span)) m =
      Eval.guarded span (inner (.inScope depth env m body) >>= fun c =>
        afterBody cfg depth env param handler c inner) m.entered := by
  change Eval.guarded span (if cfg.isFull depth then Eval.overflow else
    Step.stmt cfg inner depth env (.tryCatch body param handler span)) m = _
  rw [if_neg (by rw [hRoom]; exact Bool.false_ne_true), stmt_tryCatch]
  rfl

theorem enter_eq (env : Env) (names : Scope) (m : Machine) : Eval.enter env names m =
    .ok (env.extend m.heap.scopes.size) (m.withHeap (m.heap.newScope names).2) := rfl

/-- The parts of a `try` statement: its body, and what is needed after that. -/
theorem of_needs_tryCatch {inner : Worker} {depth : Nat} {env : Env} {body : Block} {param : Ident}
    {handler : Block} {span : Option Span} {m k : Machine} {t : Task}
    (h : Needs cfg inner (.execute depth env (.tryCatch body param handler span)) m t k) :
    cfg.isFull depth = false ∧
      ((t = .inScope depth env m body ∧ k = m.entered) ∨
        ∃ c m₁, inner (.inScope depth env m body) m.entered = .ok c m₁ ∧
          BreaksAt (afterBody cfg depth env param handler c) inner m₁ t k) := by
  have hInside := (needs_iff.mp h).of_guarded
  cases hRoom : cfg.isFull depth with
  | true =>
    rw [hRoom] at hInside
    exact absurd hInside (BreaksAt.not_of_const fun _ => rfl)
  | false =>
    rw [hRoom] at hInside
    have hStmt : BreaksAt (fun inner => Step.stmt cfg inner depth env
      (.tryCatch body param handler span)) inner m t k := hInside
    simp only [stmt_tryCatch] at hStmt
    have L := Discipline.unordered_lawful cfg
    rcases hStmt.of_bind (L.scripted_enter env []) with hEnter | ⟨-, tryEnv, m₁, hEnter, hRest⟩
    · exact absurd hEnter (BreaksAt.not_of_const fun _ => rfl)
    rw [enter_eq] at hEnter
    cases hEnter
    refine ⟨rfl, ?_⟩
    rcases hRest.of_bind (Relays.ask (.executeAll ..)).script with
      hBody | ⟨-, c, m₂, hBody, hAfter⟩
    · exact .inl hBody.eq_of_ask
    · exact .inr ⟨c, m₂, hBody, hAfter⟩

theorem relays_afterBody (depth : Nat) (env : Env) (param : Ident) (handler : Block)
    (c : Completion) : Relays Completion.throw? (afterBody cfg depth env param handler c) := by
  cases c with
  | throw t =>
    refine .andThen (.op (plain_display _ _)) fun text => ?_
    exact .andThen (.op (plain_debug _)) fun _ => relays_block _ env _ handler.body
  | _ => exact .done rfl

end Step

/-! ## Parts that nothing shields -/

/-- The part of the task is its body, if the task is a `try` statement. -/
inductive TryBody (m : Machine) : Task → Task → Prop where
  | intro (depth : Nat) (env : Env) (body : Block) (param : Ident) (handler : Block)
      (span : Option Span) :
      TryBody m (.execute depth env (.tryCatch body param handler span))
        (.inScope depth env m body)

section

variable {cfg : Settings} {inner : Worker} {m m' : Machine} {t t' : Task} {s : Signal}

theorem relays_core (cfg : Settings) (t : Task)
    (hTry : ∀ depth env body param handler span,
      t ≠ .execute depth env (.tryCatch body param handler span)) :
    Relays t.throw? fun inner => t.core cfg inner := by
  cases t with
  | evaluate depth env e =>
    exact .ite (fun _ => .op plain_overflow) fun _ => Step.relays_expr cfg depth env e
  | evaluateAll depth env es =>
    cases es with
    | nil => exact .done rfl
    | cons e rest =>
      exact .andThen (.ask (.evaluate ..)) fun v => .andThen (.ask (.evaluateAll ..)) fun vs =>
        .done rfl
  | apply depth callee args => exact Step.relays_apply cfg depth callee args
  | applyFunc depth id self args => exact Step.relays_applyFunc cfg depth id self args
  | execute depth env s =>
    refine .ite (fun _ => .own fun m s hSignal => ?_) fun _ =>
      Step.relays_stmt cfg depth env s fun body param handler span hs =>
        hTry depth env body param handler span (hs ▸ rfl)
    cases hSignal
    trivial
  | executeSimple depth env s => exact Step.relays_executeSimple cfg depth env s
  | executeAll depth env body => exact Step.relays_executeAll cfg depth env body
  | executeElifs depth env clauses otherwise =>
    exact Step.relays_executeElifs cfg depth env clauses otherwise
  | runWhile depth env condition body => exact Step.relays_runWhile cfg depth env condition body
  | runFor depth env condition update body =>
    exact Step.relays_runFor cfg depth env condition update body

/-- The core of a `try` statement, once it has made the scope of its body. -/
theorem core_tryCatch {depth : Nat} {env : Env} {body : Block} {param : Ident} {handler : Block}
    {span : Option Span} (hRoom : cfg.isFull depth = false) :
    (Task.execute depth env (.tryCatch body param handler span)).core cfg inner m =
      (inner (.inScope depth env m body) >>= fun c =>
        Step.afterBody cfg depth env param handler c inner) m.entered := by
  change (if cfg.isFull depth then Eval.overflow else
    Step.stmt cfg inner depth env (.tryCatch body param handler span)) m = _
  rw [if_neg (by rw [hRoom]; exact Bool.false_ne_true), Step.stmt_tryCatch]
  rfl

/-- The core of a step ends with the signal that a part ends with, unless the part is the body of
a `try` statement. -/
theorem core_of_needs (hNeeds : Needs cfg inner t m t' m') (hPart : ¬TryBody m t t')
    (hSignal : t'.signal? (inner t' m') = some s) : t.signal? (t.core cfg inner m) = some s := by
  by_cases hTry : ∃ depth env body param handler span,
      t = .execute depth env (.tryCatch body param handler span)
  · obtain ⟨depth, env, body, param, handler, span, rfl⟩ := hTry
    obtain ⟨hRoom, ⟨rfl, -⟩ | ⟨c, m₁, hBody, hAfter⟩⟩ := Step.of_needs_tryCatch hNeeds
    · exact absurd (.intro depth env body param handler span) hPart
    · rw [core_tryCatch hRoom, Eval.bind_eq, hBody]
      exact (Step.relays_afterBody depth env param handler c).passes hAfter hSignal
  · have hRelays := relays_core cfg t fun depth env body param handler span h =>
      hTry ⟨depth, env, body, param, handler, span, h⟩
    exact hRelays.passes (Task.breaksAt_core.mp (needs_iff.mp hNeeds)) hSignal

/-- A step hands on the signal that such a part ends with. -/
theorem signal_of_needs (hNeeds : Needs cfg inner t m t' m') (hPart : ¬TryBody m t t')
    (hSignal : t'.signal? (inner t' m') = some s) :
    t.signal? (step cfg inner t m) = some (t.handOn s) := by
  rw [Task.signal?_step, core_of_needs hNeeds hPart hSignal, Option.map_some]

end

end Tern
