import Tern.Proofs.Grammar.Prompt

/-!
# What stops early can be completed

The prompt parser is held to complete what it reads: where it stops early, the row ahead is the
beginning of one that the grammar allows. With no room left the parser stops early too, though a
level more would do; so the row is completed with one level more than the parser has.

* `Grammar.completes_promptLevel`: the levels of the prompt parser;
* `Grammar.exists_completion`: programs.
-/

namespace Tern

namespace Grammar

open Tern.Parser Form

/-- With no room left the parser stops, early if nothing is ahead; with one level more a name would
do there. -/
theorem completes_promptLevel (room : Nat) :
    CompletesLevel True (promptLevel room) (forms (room + 1)) := by
  have hCloses : ∀ {room}, True → ∀ ctx xs n n' s, (forms room).declaration ctx xs n s →
      Closes n' → (forms room).declaration ctx xs n' s := fun _ _ _ _ _ _ =>
    forms_declaration_closes
  induction room with
  | zero =>
    have hCalled : ∀ {ctx} (id : Ident), Called (forms 0) ctx [.name id.name] (.name id) :=
      fun id => ⟨[.name id.name], [], .name id, rfl, .name id, .done⟩
    have hChained : ∀ {start : List Terminal → Expr → Prop} {round} {xs : List Terminal} {e : Expr},
        start xs e → Chained start round xs e :=
      fun h => ⟨_, [], _, (List.append_nil _).symm, h, .done⟩
    refine ⟨fun ctx f => ?_, fun ctx f => ?_, fun ctx f hf => ?_, hCloses⟩
    · refine completes_peek_bind fun t ht => completes_missing ht fun id => .value ?_
      exact hChained (hChained (hChained (hChained (hChained (hChained (.call (hCalled id)))))))
    · exact completes_peek_bind fun t ht => completes_missing ht fun id => .call (hCalled id)
    · exact completes_peek_bind fun t ht => completes_wanted ht fun hHeld hEnd =>
        absurd hEnd (hf hHeld)
  | succ room ih =>
    exact ⟨fun _ f => completes_promptAssignment ih f, fun _ f => completes_unary ih f,
      fun _ f _ => completes_declaration ih f, hCloses⟩

/-- What is read, or stops early, is the beginning of a program that can be written down. -/
theorem exists_completion (room : Nat) {s : Input} (hFailure : s.failure = none)
    (hSize : s.terminals.length ≤ s.size)
    (hRun : ∀ e, programOf (promptLevel room) s = .error e → e.isEarly = true) :
    ∃ ys body, (∀ y ∈ ys, y.Written) ∧ Series ((forms (room + 1)).declaration .top)
      (s.terminals ++ ys) (.mark .endOfInput) body := by
  obtain ⟨start, hPeek⟩ := total_peek hFailure
  have hEnds := completes_statements (completes_promptLevel room) (s.size + 1) s.ahead s
    (fun _ => hFailure) rfl
  unfold programOf at hRun
  rw [bind_ok hPeek] at hRun
  generalize hBody : chainUpTo _ _ (s.size + 1) [] s = r at hEnds
  cases hEnds with
  | @done body s' xs taken result =>
    obtain ⟨-, -, hNone, -⟩ := exists_of_statements (promptLevel_sound room) hSize hBody
    rw [Input.ahead, hNone] at result
    refine ⟨[], body.reverse, fun y hy => absurd hy List.not_mem_nil, ?_⟩
    rw [taken.terminals, hNone, List.append_nil, List.append_nil]
    exact result
  | free free => exact absurd trivial free
  | @early e ys body _ written completed => exact ⟨ys, body.reverse, written, completed⟩
  | @definite e definite _ =>
    have hEarly := hRun e (bind_error hBody)
    rw [definite] at hEarly
    cases hEarly

end Grammar

end Tern
