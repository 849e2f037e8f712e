import Tern.Proofs.Machine.Relaying

/-!
# Where throws go

A value that is thrown, or a fault or a lack of room in the host, which stand for their messages,
leaves every piece of work that it comes up in: expressions break off, calls hand it on to their
callers, statements end with it and so do the statements around them. Only the body of a `try`
statement does not let it through.

* `Task.raised`: the value that a task ends with raising, which is that of its signal;
* `raised_of_needs`: every step ends with raising what a part of it does, but for the bodies of
  `try` statements;
* `Leads`: the parts of a run that no `try` statement shields;
* `raised_of_leads`: what such a part raises, the run raises;
* `raised_throw`: what a `throw` statement raises.
-/

namespace Tern

/-! ## What is raised -/

theorem RuntimeError.message_attach (e : RuntimeError) (span : Option Span) :
    (e.attach span).message = e.message := by
  unfold attach
  cases e.span <;> rfl

namespace Signal

/-- The value that a signal carries to the next statement: what was thrown, or the message. -/
def value? : Signal → Option Value
  | thrown t => some t.value
  | fault e => some (.string e.message)
  | overflow _ => some (.string (Fault.message .hostStack))
  | failure _ | exhausted => none

theorem value?_locate (span : Option Span) (s : Signal) : (s.locate span).value? = s.value? := by
  cases s with
  | fault e => rw [locate, value?, value?, RuntimeError.message_attach]
  | _ => rfl

theorem value?_caught (span : Option Span) (s : Signal) : (s.caught span).value? = s.value? := by
  cases s with
  | fault e =>
    change some _ = some _
    rw [thrownBy, RuntimeError.message_attach]
  | _ => rfl

end Signal

/-- The value that a completion throws. -/
def Completion.thrown? : Completion → Option Value
  | throw t => some t.value
  | _ => none

/-- The value that a computation ends with raising: by a signal, or by a result of which `thrown?`
says so. -/
def raised {α : Type} (thrown? : α → Option Value) : EStateM.Result Signal Machine α → Option Value
  | .ok a _ => thrown? a
  | .error s _ => s.value?

namespace Task

/-- The value that a result of a task throws; expressions and calls throw by signals only. -/
def thrown? : (t : Task) → t.Result → Option Value
  | evaluate .. | evaluateAll .. | apply .. | applyFunc .. => fun _ => none
  | execute .. | executeSimple .. | executeAll .. | executeElifs .. | runWhile .. | runFor .. =>
    Completion.thrown?

/-- The value that a task ends with raising. -/
def raised (t : Task) (r : EStateM.Result Signal Machine t.Result) : Option Value :=
  Tern.raised t.thrown? r

end Task

namespace Task

theorem value?_handOn (t : Task) (s : Signal) : (t.handOn s).value? = s.value? := by
  cases t with
  | evaluate depth env e => exact s.value?_locate e.span
  | execute depth env st => exact s.value?_caught st.span
  | _ => rfl

theorem raised_eq (t : Task) (r : EStateM.Result Signal Machine t.Result) :
    t.raised r = (t.signal? r).bind Signal.value? := by
  have hCompletion : ∀ r : EStateM.Result Signal Machine Completion,
      Tern.raised Completion.thrown? r =
        (Tern.signal? Completion.throw? r).bind Signal.value? := by
    intro r
    cases r with
    | ok c m => cases c <;> rfl
    | error s m => rfl
  cases t with
  | evaluate | evaluateAll | apply | applyFunc => cases r <;> rfl
  | _ => exact hCompletion r

end Task

/-- A step ends with raising what a part ends with raising, unless the part is the body of a
`try` statement. -/
theorem raised_of_needs {cfg : Settings} {inner : Worker} {m m' : Machine} {t t' : Task}
    {v : Value} (hNeeds : Needs cfg inner t m t' m') (hPart : ¬TryBody m t t')
    (hRaised : t'.raised (inner t' m') = some v) : t.raised (step cfg inner t m) = some v := by
  rw [Task.raised_eq] at hRaised ⊢
  obtain ⟨s, hSignal, hValue⟩ := Option.bind_eq_some_iff.mp hRaised
  rw [signal_of_needs hNeeds hPart hSignal, Option.bind_some, Task.value?_handOn]
  exact hValue

/-! ## Runs -/

/-- `Leads cfg fuel t m k t' m'`: the run of `t` from `m` comes to do `t'` from `m'`, with the fuel
`k` left, and no `try` statement on the way has it in its body. -/
inductive Leads (cfg : Settings) (fuel : Nat) (t : Task) (m : Machine) :
    Nat → Task → Machine → Prop where
  | start : Leads cfg fuel t m fuel t m
  | part {k : Nat} {t' t'' : Task} {m' m'' : Machine} (before : Leads cfg fuel t m (k + 1) t' m')
      (need : Needs cfg (run cfg k) t' m' t'' m'') (unshielded : ¬TryBody m' t' t'') :
      Leads cfg fuel t m k t'' m''

variable {cfg : Settings} {fuel k : Nat} {t t' : Task} {m m' : Machine} {v : Value}

theorem Leads.moment (h : Leads cfg fuel t m k t' m') : Moment cfg fuel t m k t' m' := by
  induction h with
  | start => exact .start
  | part _ need _ ih => exact .part ih need

/-- What comes up anywhere in a run, at any depth of calls and outside the bodies of `try`
statements, is what the run ends with raising. -/
theorem raised_of_leads (hLeads : Leads cfg fuel t m k t' m')
    (hRaised : t'.raised (run cfg k t' m') = some v) :
    t.raised (run cfg fuel t m) = some v := by
  induction hLeads with
  | start => exact hRaised
  | part _ need unshielded ih => exact ih (raised_of_needs need unshielded hRaised)

/-- A `throw` statement raises the value of its expression. -/
theorem raised_throw {depth : Nat} {env : Env} {e : Expr} {span : Option Span}
    (hRoom : cfg.isFull depth = false)
    (hValue : run cfg fuel (.evaluate (depth + 1) env e) m = .ok v m') :
    (Task.execute depth env (.throw e span)).raised
      (run cfg (fuel + 1) (.execute depth env (.throw e span)) m) = some v := by
  change raised Completion.thrown? (Eval.guarded span (if cfg.isFull depth then Eval.overflow else
    run cfg fuel (.evaluate (depth + 1) env e) >>= fun v =>
      (pure (.throw ⟨v, none, span⟩) : Eval Completion)) m) = _
  rw [if_neg (by rw [hRoom]; exact Bool.false_ne_true)]
  unfold Eval.guarded
  rw [Eval.bind_eq, hValue]
  rfl

end Tern
