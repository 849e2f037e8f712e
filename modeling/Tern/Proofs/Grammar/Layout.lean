import Tern.Proofs.Grammar.SideBySide

/-!
# Layout does not matter

What a parser makes of tokens depends on what they are, and not on where they stand: places enter
the spans of the tree and the positions of errors, and nothing else. So two sources with the same
lexemes are both programs, with the same tree up to spans, or neither is, for the same reason.

* `Comparison.faces`: tokens that differ in their places only;
* `SameVerdict`: two sources on which the parser says the same;
* `layout_irrelevant`: blanks and comments between lexemes do not matter.
-/

namespace Tern

/-- Tokens are alike if they differ in their places only, and trees are compared without spans. -/
def Comparison.faces (finish follow : Token) (hEnd : finish.kind = .endOfInput) : Comparison where
  like t t' := t'.face = t.face
  left := fun _ => none
  right := fun _ => none
  finish := finish
  follow := follow
  later := []
  isOpen := False
  face h := h
  spans _ _ := rfl
  ending := hEnd
  apart := False.elim

/-- Two sources are both programs, with the same tree up to spans, or the parser rejects both and
gives the same reason. -/
def SameVerdict : Except SyntaxError Program → Except SyntaxError Program → Prop
  | .ok p, .ok q => q.bare = p.bare
  | .error (.parse e), .error (.parse e') =>
    e'.message = e.message ∧ e'.expected = e.expected ∧ e'.found = e.found
  | _, _ => False

theorem SameVerdict.of_outcome {finish follow : Token} {hEnd : finish.kind = .endOfInput}
    {post : Input → Input → Prop} {x y : Except SyntaxError (Program × Input)}
    (h : (Comparison.faces finish follow hEnd).Outcome
      (fun p p' => (Comparison.faces finish follow hEnd).Same p.body p'.body) post x y) :
    SameVerdict (x >>= fun q => pure q.1) (y >>= fun q => pure q.1) := by
  cases h with
  | @done p q _ _ hSame _ =>
    change p.body.map (Stmt.respan fun _ => none) = q.body.map (Stmt.respan fun _ => none) at hSame
    change q.bare = p.bare
    rw [← Program.respan_none, ← Program.respan_none, Program.respan, Program.respan, hSame]
  | @failed e e' hCause hFound =>
    change e'.message = e.message ∧ e'.expected = e.expected ∧ e'.found = e.found
    rw [ParseError.message, ParseError.message, ParseError.expected, ParseError.expected, hCause,
      hFound]
    exact ⟨rfl, rfl, rfl⟩
  | broken hOpen => exact hOpen.elim

/-- Streams with the same lexemes, wherever they stand, get the same verdict. -/
theorem Program.sameVerdict {ts ts' : List Token} {pos pos' : Position}
    (hFaces : ts'.map Token.face = ts.map Token.face) (hKinds : ∀ t ∈ ts, t.kind ≠ .endOfInput) :
    SameVerdict (ofStream? ⟨ts ++ [.eof pos], none⟩) (ofStream? ⟨ts' ++ [.eof pos'], none⟩) := by
  have hEqual : List.Forall₂ (fun a b => b = a) (ts.map Token.face) (ts'.map Token.face) := by
    rw [hFaces]
    exact List.forall₂_same.mpr fun _ _ => rfl
  have hLike : List.Forall₂ (fun t t' : Token => t'.face = t.face) ts ts' :=
    List.forall₂_map_left_iff.mp (List.forall₂_map_right_iff.mp hEqual)
  let D := Comparison.faces (.eof pos) (.eof pos') rfl
  have hFacing : D.Facing False (ts ++ [Token.eof pos]).length
      (.ofStream ⟨ts ++ [.eof pos], none⟩) (.ofStream ⟨ts' ++ [.eof pos'], none⟩) :=
    ⟨D.rows_of_shut id rfl hLike hKinds, nofun, Nat.le_refl _, Nat.le_refl _, Nat.le_refl _⟩
  exact .of_outcome (D.tracks_program id _ _ hFacing)

namespace TokenStream

/-- Layout does not matter. A source without trouble has the lexemes of the source in which they
stand with single blanks between them; and two sources with the same lexemes are both programs, with
the same tree up to spans, or are both rejected for the same reason. -/
theorem layout_irrelevant :
    (∀ source, (ofSource source).failure = none →
      (ofSource (ofSource source).spaced).failure = none ∧
        (ofSource (ofSource source).spaced).tokens.map Token.face =
          (ofSource source).tokens.map Token.face) ∧
    ∀ source source', (ofSource source).failure = none → (ofSource source').failure = none →
      (ofSource source').tokens.map Token.face = (ofSource source).tokens.map Token.face →
      SameVerdict (Program.parse? source) (Program.parse? source') := by
  refine ⟨fun source h => ofSource_spaced h, fun source source' h h' hFaces => ?_⟩
  obtain ⟨hTokens, -, hLexemes⟩ := ofSource_eq h
  obtain ⟨hTokens', -, -⟩ := ofSource_eq h'
  have hSame : (ofSource source').lexemes.map Token.face =
      (ofSource source).lexemes.map Token.face := by
    rw [hTokens, hTokens', List.map_append, List.map_append] at hFaces
    exact (List.append_inj' hFaces rfl).1
  rw [Program.parse?, Program.parse?, hTokens, hTokens']
  exact Program.sameVerdict hSame fun t ht => (hLexemes t ht).kind_ne_end

/-- A division between a comment and a line break is a division between two blanks. -/
theorem layout_irrelevant_division :
    (ofSource "a/**//\n b;").spaced = "a / b ;" ∧ (ofSource "a/**//\n b;").failure = none ∧
      SameVerdict (Program.parse? "a/**//\n b;") (Program.parse? "a / b ;") := by
  have hSpaced : (ofSource "a/**//\n b;").spaced = "a / b ;" := by decide +kernel
  have hFailure : (ofSource "a/**//\n b;").failure = none := by decide +kernel
  obtain ⟨hNone, hFaces⟩ := layout_irrelevant.1 "a/**//\n b;" hFailure
  rw [hSpaced] at hNone hFaces
  exact ⟨hSpaced, hFailure, layout_irrelevant.2 _ _ hFailure hNone hFaces⟩

end TokenStream

end Tern
