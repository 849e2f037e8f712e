import Tern.Proofs.Grammar.Stopping
import Tern.Proofs.Token.Extension
import Tern.Repl

/-!
# Definite failures are final

A source that is in error for another reason than that it stops stays in error, whatever lines come
after it. The interactive loop runs its text as soon as it is not incomplete, so a text that it runs
is a program, or none of its continuations is one.

* `trailing_ofSource`: the tokens of a source stop where those of a source with more lines go on;
* `Program.early_of_more`: what can be continued is read or stops early;
* `definite_failure_final`: the law of incomplete sources and of the interactive loop.
-/

namespace Tern

open Grammar

theorem trailing_ofSource (a b : String) :
    Trailing (TokenStream.ofSource a).tokens (TokenStream.ofSource (a ++ "\n" ++ b)).tokens := by
  obtain ⟨-, -, tail, -, hTokens, hEnd⟩ := TokenStream.exists_cut a
  obtain ⟨later, hLonger⟩ := TokenStream.exists_more a b
  rw [hTokens, hLonger]
  refine Trailing.append (Token.forall_like _) (fun t ht => ?_) later hEnd
  simpa using (List.mem_filter.mp ht).2

namespace Program

theorem ofStream_eq_error {stream : TokenStream} {e : SyntaxError}
    (h : program (.ofStream stream) = .error e) : ofStream? stream = .error e := by
  change (program (.ofStream stream) >>= fun q => pure q.1) = _
  rw [h]
  rfl

/-- A source with lines that make it a program is a program itself, or stops early. -/
theorem early_of_more {source more : String} {p : Program}
    (h : parse? (source ++ "\n" ++ more) = .ok p) :
    (∃ q, parse? source = .ok q) ∨ isIncomplete source = true := by
  obtain ⟨v, hRun⟩ := exists_of_stream h
  by_cases hTrouble : ∀ e ∈ (TokenStream.ofSource source).failure,
      (SyntaxError.lex e).isEarly = true
  · rcases ends_of_trailing (trails_level maxNesting) (trailing_ofSource source more) hTrouble hRun
      with ⟨q, s, hShort⟩ | ⟨e, hShort, hEarly⟩
    · refine .inl ⟨q, ?_⟩
      change (program (.ofStream (.ofSource source)) >>= fun q => pure q.1) = _
      rw [program_eq_programOf, hShort]
      rfl
    · rw [isIncomplete_eq, parse?, ofStream_eq_error hShort]
      exact .inr hEarly
  · simp only [not_forall] at hTrouble
    obtain ⟨⟨cause, pos⟩, hFailure, hLate⟩ := hTrouble
    cases cause with
    | stray c =>
      rw [parse?, TokenStream.ofSource_stray more hFailure] at h
      exact .inl ⟨p, h⟩
    | openString | openComment => exact absurd rfl hLate

end Program

/-- More lines after a text that is not empty. -/
theorem Repl.exists_join (lines : List String) {text : String} (h : text ≠ "") :
    lines.foldl join text = text ∨ ∃ more, lines.foldl join text = text ++ "\n" ++ more := by
  induction lines generalizing text with
  | nil => exact .inl rfl
  | cons line lines ih =>
    refine .inr ?_
    rw [List.foldl_cons, join, if_neg h]
    have hText : text ++ "\n" ++ line ≠ "" := by simp
    rcases ih hText with hSame | ⟨more, hMore⟩
    · exact ⟨line, hSame⟩
    · exact ⟨line ++ "\n" ++ more, by rw [hMore]; simp only [String.append_assoc]⟩

/-- A definite failure is final: a source that is in error, and not incomplete, stays in error
whatever lines come after it. So a text that the interactive loop runs though it is in error could
not have become a program with any further lines. -/
theorem definite_failure_final {source : String} {e : SyntaxError}
    (hParse : Program.parse? source = .error e) :
    (isIncomplete source = false →
      ∀ more, ∃ e', Program.parse? (source ++ "\n" ++ more) = .error e') ∧
    ∀ pending line, Repl.accept pending line = .run source →
      ∀ lines : List String, ∃ e', Program.parse? (lines.foldl Repl.join source) = .error e' := by
  have hFinal : isIncomplete source = false →
      ∀ more, ∃ e', Program.parse? (source ++ "\n" ++ more) = .error e' := by
    intro hDefinite more
    cases hMore : Program.parse? (source ++ "\n" ++ more) with
    | error e' => exact ⟨e', rfl⟩
    | ok p =>
      rcases Program.early_of_more hMore with ⟨q, hRead⟩ | hEarly
      · rw [hParse] at hRead
        cases hRead
      · rw [hDefinite] at hEarly
        cases hEarly
  refine ⟨hFinal, fun pending line hAccept lines => ?_⟩
  obtain ⟨hText, hDefinite⟩ : source ≠ "" ∧ isIncomplete source = false := by
    unfold Repl.accept at hAccept
    split at hAccept
    · cases hAccept
    · simp only at hAccept
      split at hAccept
      · cases hAccept
      · next hBlank =>
        split at hAccept
        · cases hAccept
        · next hComplete =>
          cases hAccept
          refine ⟨fun hEmpty => hBlank ?_, by simpa using hComplete⟩
          rw [hEmpty]
          decide
  rcases Repl.exists_join lines hText with hSame | ⟨more, hMore⟩
  · exact ⟨e, by rw [hSame]; exact hParse⟩
  · exact hMore ▸ hFinal hDefinite more

/-- A call is no target, which shows only when the value has been read. -/
theorem definite_failure_final_target : isIncomplete "f(" = true ∧
    Repl.accept "f(" ") = 1" = .run "f(\n) = 1" ∧
    (∀ more, ∃ e, Program.parse? ("f(\n) = 1" ++ "\n" ++ more) = .error e) ∧
    ∀ lines : List String, ∃ e, Program.parse? (lines.foldl Repl.join "f(\n) = 1") = .error e := by
  have hFails : (Program.parse? "f(\n) = 1").isOk = false := by decide +kernel
  obtain ⟨e, hParse⟩ : ∃ e, Program.parse? "f(\n) = 1" = .error e := by
    cases hRead : Program.parse? "f(\n) = 1" with
    | ok p =>
      rw [hRead] at hFails
      cases hFails
    | error e => exact ⟨e, rfl⟩
  have hAccept : Repl.accept "f(" ") = 1" = .run "f(\n) = 1" := by decide +kernel
  exact ⟨by decide +kernel, hAccept, (definite_failure_final hParse).1 (by decide +kernel),
    (definite_failure_final hParse).2 _ _ hAccept⟩

end Tern
