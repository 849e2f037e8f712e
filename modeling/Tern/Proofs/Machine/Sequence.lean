import Tern.Proofs.Machine.ControlFlow
import Tern.Proofs.Machine.Reflection

/-!
# Programs one after another

The statements of a program run one by one, and all that goes from one to the next is the machine.
So a program can be cut between any two of them: the first part runs, and the second goes on if
that completes. This needs statements that end normally or throw, as those of every program that
was read do; a `return` at the top level would complete the first part and break off the whole.

* `Stmt.EndsPlainly`: what a statement at the top level must not do;
* `Completes`: statements that all end normally, one after another;
* `interpretFrom_append`: a row of statements runs as its two parts do;
* `incremental_run`: programs one after another, and a program that the host stops.
-/

namespace Tern

variable {cfg : Settings} {halt : Nat → Bool} {env : Env}

/-- Whenever the statement completes at the top level, it ends normally or throws. -/
def Stmt.EndsPlainly (cfg : Settings) (env : Env) (s : Stmt) : Prop :=
  (executeTop cfg env s).Returns fun r => r.1 = .normal ∨ ∃ t, r.1 = .throw t

/-- `Completes cfg env value body m v m'`: the statements end normally one after another, the first
of them from `m`. They leave `m'` behind, and the result is `v` if it was `value` before. -/
inductive Completes (cfg : Settings) (env : Env) :
    Value → List Stmt → Machine → Value → Machine → Prop where
  | nil {value : Value} {m : Machine} : Completes cfg env value [] m value m
  | cons {value v w : Value} {s : Stmt} {rest : List Stmt} {m m₁ m' : Machine}
      (ends : executeTop cfg env s m = .ok (.normal, w) m₁)
      (after : Completes cfg env w rest { m₁ with executed := m₁.executed + 1 } v m') :
      Completes cfg env value (s :: rest) m v m'

section

variable {s : Stmt} {first second rest : List Stmt} {m m₁ m' : Machine} {value v : Value}

/-- The result so far does not matter where a statement follows. -/
theorem interpretFrom_value (h : second ≠ []) :
    interpretFrom cfg halt env value second = interpretFrom cfg halt env .null second := by
  cases second with
  | nil => exact absurd rfl h
  | cons s rest => rfl

/-! ## Two parts -/

/-- What comes after the first part: the second part, or nothing if the first did not complete. -/
def Outcome.followedBy (cfg : Settings) (halt : Nat → Bool) (env : Env) (second : List Stmt) :
    Outcome → Eval Outcome
  | .completed value => interpretFrom cfg halt env value second
  | outcome => pure outcome

/-- An uncaught throw ends the whole as it ends the first part. -/
theorem afterTop_throw_followedBy (t : Thrown) :
    (afterTop cfg halt env rest value (.throw t) >>= Outcome.followedBy cfg halt env second) m =
      afterTop cfg halt env (rest ++ second) value (.throw t) m := by
  change EStateM.bind (EStateM.bind (Eval.display cfg 0 t.value) _) _ m =
    EStateM.bind (Eval.display cfg 0 t.value) _ m
  unfold EStateM.bind
  cases Eval.display cfg 0 t.value m <;> rfl

/-- Statements run as their two parts do, wherever they are cut. -/
theorem interpretFrom_append (hFirst : ∀ s ∈ first, s.EndsPlainly cfg env) :
    interpretFrom cfg halt env value (first ++ second) m =
      (interpretFrom cfg halt env value first >>= Outcome.followedBy cfg halt env second) m := by
  induction first generalizing value m with
  | nil => rfl
  | cons s rest ih =>
    obtain ⟨hPlain, hRest⟩ := List.forall_mem_cons.mp hFirst
    change _ = EStateM.bind (interpretFrom cfg halt env value (s :: rest)) _ m
    rw [List.cons_append]
    unfold EStateM.bind
    by_cases hHalt : halt m.executed = true
    · rw [interpretFrom_halted hHalt, interpretFrom_halted hHalt]
      rfl
    have hGoes : halt m.executed = false := Bool.eq_false_iff.mpr hHalt
    cases hRun : executeTop cfg env s m with
    | error signal m₁ => rw [interpretFrom_error hGoes hRun, interpretFrom_error hGoes hRun]
    | ok r m₁ =>
      obtain ⟨c, v⟩ := r
      rw [interpretFrom_ok hGoes hRun, interpretFrom_ok hGoes hRun]
      rcases hPlain m (c, v) m₁ hRun with hEnd | ⟨t, hEnd⟩
      · obtain rfl : c = .normal := hEnd
        exact ih hRest
      · obtain rfl : c = .throw t := hEnd
        exact (afterTop_throw_followedBy t).symm

/-! ## Statements that all end normally -/

theorem executed_of_ends {r : Completion × Value} (h : executeTop cfg env s m = .ok r m₁) :
    m₁.executed = m.executed := by
  have hFinal := executed_executeTop cfg env s m
  unfold Eval.final at hFinal
  rwa [h] at hFinal

/-- Unless the host stops them, they run to their end, and what follows goes on from there. -/
theorem Completes.interpretFrom_append (h : Completes cfg env value first m v m')
    (hGoes : ∀ k, m.executed ≤ k → k < m.executed + first.length → halt k = false) :
    interpretFrom cfg halt env value (first ++ second) m =
      interpretFrom cfg halt env v second m' := by
  induction h with
  | nil => rfl
  | @cons value v w s rest m m₁ m' ends _ ih =>
    have hCount := executed_of_ends ends
    rw [List.length_cons] at hGoes
    rw [List.cons_append, interpretFrom_ok (hGoes _ (Nat.le_refl _) (by omega)) ends]
    refine ih fun k hLow hHigh => hGoes k ?_ ?_
    · change m₁.executed + 1 ≤ k at hLow
      omega
    · change k < m₁.executed + 1 + rest.length at hHigh
      omega

/-- Each of them counts. -/
theorem Completes.executed_eq (h : Completes cfg env value first m v m') :
    m'.executed = m.executed + first.length := by
  induction h with
  | nil => rfl
  | @cons value v w s rest m m₁ m' ends _ ih =>
    have hCount := executed_of_ends ends
    rw [ih, List.length_cons]
    change m₁.executed + 1 + rest.length = _
    omega

end

/-! ## Programs -/

/-- A program goes on, with the next one, where it completes. -/
def Outcome.thenRun (cfg : Settings) (halt : Nat → Bool) (env : Env) (p : Program) :
    Outcome → Eval Outcome
  | .completed _ => interpret cfg halt env p
  | outcome => pure outcome

theorem followedBy_eq_thenRun {second : List Stmt} (hSecond : second ≠ []) (span : Option Span) :
    Outcome.followedBy cfg halt env second = Outcome.thenRun cfg halt env ⟨second, span⟩ := by
  funext outcome
  cases outcome with
  | completed value => exact interpretFrom_value hSecond
  | uncaught | halted => rfl

/-- A program that a host stops after `n` statements, where these end normally. -/
theorem interpret_stopped {p : Program} {n : Nat} {m m' : Machine} {v : Value}
    (hFresh : m.executed = 0) (hFirst : Completes cfg env .null (p.body.take n) m v m') :
    interpret cfg (fun k => decide (n ≤ k)) env p m =
      .ok (if n < p.body.length then .halted n else .completed v) m' := by
  have hLength : (p.body.take n).length = min n p.body.length := List.length_take
  have hRun : interpret cfg (fun k => decide (n ≤ k)) env p m =
      interpretFrom cfg (fun k => decide (n ≤ k)) env v (p.body.drop n) m' := by
    have hAll : interpretFrom cfg (fun k => decide (n ≤ k)) env .null
        (p.body.take n ++ p.body.drop n) m =
          interpretFrom cfg (fun k => decide (n ≤ k)) env v (p.body.drop n) m' :=
      hFirst.interpretFrom_append fun k _ hHigh => decide_eq_false (by omega)
    rwa [List.take_append_drop] at hAll
  have hCount : m'.executed = min n p.body.length := by
    rw [hFirst.executed_eq, hFresh, hLength, Nat.zero_add]
  rw [hRun]
  by_cases hMore : n < p.body.length
  · have hHalt : m'.executed = n := by omega
    rw [if_pos hMore, List.drop_eq_getElem_cons hMore,
      interpretFrom_halted (decide_eq_true (Nat.le_of_eq hHalt.symm)), hHalt]
  · rw [if_neg hMore, List.drop_eq_nil_of_le (Nat.le_of_not_lt hMore)]
    rfl

/-- Running statement lists one after another is running them all at once. If the statements of
the first list end normally or throw when they complete, the two lists together do what the first
does and then, if that completed, what the second does: the machine they leave, the result, an
uncaught throw and the number at which the host halted them are all the same. If the first `n`
statements of a program end normally on a machine that has not run any, a host that halts after `n`
statements leaves the machine that those statements alone leave, and halts the program exactly if
it has more. And the statements of every program that was read end normally or throw. -/
theorem incremental_run (cfg : Settings) (env : Env) :
    (∀ (halt : Nat → Bool) (first second : List Stmt) (span span₁ span₂ : Option Span)
      (m : Machine), (∀ s ∈ first, s.EndsPlainly cfg env) → second ≠ [] →
      interpret cfg halt env ⟨first ++ second, span⟩ m =
        (interpret cfg halt env ⟨first, span₁⟩ >>=
          Outcome.thenRun cfg halt env ⟨second, span₂⟩) m) ∧
    (∀ (p : Program) (n : Nat) (m m' : Machine) (v : Value), m.executed = 0 →
      Completes cfg env .null (p.body.take n) m v m' →
      (∀ (alone : Nat → Bool) (span : Option Span), (∀ k < n, alone k = false) →
        interpret cfg alone env ⟨p.body.take n, span⟩ m = .ok (.completed v) m') ∧
      interpret cfg (fun k => decide (n ≤ k)) env p m =
        .ok (if n < p.body.length then .halted n else .completed v) m') ∧
    ∀ (source : String) (p : Program), Program.parse? source = .ok p →
      ∀ s ∈ p.body, s.EndsPlainly cfg env := by
  refine ⟨?_, ?_, ?_⟩
  · intro halt first second span span₁ span₂ m hFirst hSecond
    rw [← followedBy_eq_thenRun hSecond]
    exact interpretFrom_append hFirst
  · intro p n m m' v hFresh hFirst
    refine ⟨fun alone span hAlone => ?_, interpret_stopped hFresh hFirst⟩
    have hRun : interpretFrom cfg alone env .null (p.body.take n ++ []) m =
        interpretFrom cfg alone env v [] m' :=
      hFirst.interpretFrom_append fun k _ hHigh =>
        hAlone k (by rw [List.length_take] at hHigh; omega)
    rwa [List.append_nil] at hRun
  · intro source p hParse s hs
    exact returns_executeTop cfg env ((Node.read_of_parse hParse).body s hs).placed

/-- Settings for a few steps. -/
def fewSteps : Settings := { Session.standard.settings with fuel := 5 }

/-- A statement that says a truth value. -/
def saying (b : Bool) : Stmt := .simple (.expr (.boolean b none) none)

/-- Two statements one after another, and a host that halts after the first. -/
theorem incremental_run_saying :
    interpret fewSteps (fun k => decide (1 ≤ k)) Session.standard.globals
        ⟨[saying true] ++ [saying false], none⟩ Session.standard.machine =
      (interpret fewSteps (fun k => decide (1 ≤ k)) Session.standard.globals
          ⟨[saying true], none⟩ >>=
        Outcome.thenRun fewSteps (fun k => decide (1 ≤ k)) Session.standard.globals
          ⟨[saying false], none⟩) Session.standard.machine ∧
    interpret fewSteps (fun k => decide (1 ≤ k)) Session.standard.globals
        ⟨[saying true, saying false], none⟩ Session.standard.machine =
      .ok (.halted 1) { Session.standard.machine with executed := 1 } := by
  have hValue : Node.Placed .top (.expr (.boolean true none)) :=
    Node.placed_iff.mpr ⟨trivial, by simp [Node.parts, Node.children, Node.ofExpr]⟩
  have hPlaced : Node.Placed .top (.stmt (saying true)) := by
    refine Node.placed_iff.mpr ⟨trivial, fun q hq => ?_⟩
    obtain rfl : q = (.top, .expr (.boolean true none)) := by
      simpa [saying, Node.parts, Node.stmtParts, Node.ofStmt, Node.ofSimple] using hq
    exact hValue
  have hPlain : ∀ s ∈ [saying true], s.EndsPlainly fewSteps Session.standard.globals := by
    intro s hs
    obtain rfl := List.mem_singleton.mp hs
    exact returns_executeTop _ _ hPlaced
  have hCompletes : Completes fewSteps Session.standard.globals .null
      (([saying true, saying false] : List Stmt).take 1) Session.standard.machine (.bool true)
      { Session.standard.machine with executed := 1 } := by
    have hEnds : executeTop fewSteps Session.standard.globals (saying true)
        Session.standard.machine = .ok (.normal, .bool true) Session.standard.machine := rfl
    exact .cons hEnds .nil
  refine ⟨?_, ?_⟩
  · exact (incremental_run fewSteps Session.standard.globals).1 _ _ _ none none none _ hPlain
      (by simp)
  · exact ((incremental_run fewSteps Session.standard.globals).2.1
      ⟨[saying true, saying false], none⟩ 1 _ _ _ rfl hCompletes).2

end Tern
