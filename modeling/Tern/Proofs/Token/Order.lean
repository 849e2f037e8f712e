import Mathlib.Order.Basic
import Tern.Proofs.Token.Layout

/-!
# Tokens stand in order

Places are ordered by lines, and within a line by columns. Reading on never leads back, so the
tokens of a source stand one behind the other. The place where a token stops is taken to lie on the
line where it starts: it never comes after the place behind its last character, and it is that place
unless the token has a line feed in it.

* `Position.place_le`: reading on does not lead back;
* `Token.InOrder`, `Token.StandsIn`: a row of tokens, and where a token stands;
* `Token.stop_eq_iff`: tokens that stop where they end;
* `TokenStream.inOrder_ofSource`: the tokens of a source.
-/

namespace Tern

namespace Position

/-- By lines, and within a line by columns. -/
instance : Preorder Position where
  le p q := p.line < q.line ∨ p.line = q.line ∧ p.column ≤ q.column
  le_refl p := .inr ⟨rfl, Nat.le_refl _⟩
  le_trans p q r := by
    rintro (h | h) (h' | h')
    · exact .inl (by omega)
    · exact .inl (by omega)
    · exact .inl (by omega)
    · exact .inr (by omega)

variable {cs : List Char}

theorem line_after (p : Position) (cs : List Char) :
    (p.after cs).line = p.line + cs.count '\n' := by
  induction cs generalizing p with
  | nil => rfl
  | cons c cs ih =>
    change ((p.next c).after cs).line = _
    rw [ih, List.count_cons, next]
    split
    · next h =>
      subst h
      simp only [beq_self_eq_true, if_true]
      omega
    · next h => simp [h]

theorem after_of_notMem (p : Position) (h : '\n' ∉ cs) :
    p.after cs = ⟨p.line, p.column + Text.unitCount cs⟩ := by
  induction cs generalizing p with
  | nil => rfl
  | cons c cs ih =>
    rw [List.mem_cons, not_or] at h
    change (p.next c).after cs = _
    rw [ih _ h.2, next, if_neg (Ne.symm h.1), Text.unitCount_cons, Nat.add_assoc]

theorem le_after (p : Position) (cs : List Char) : p ≤ p.after cs := by
  by_cases h : '\n' ∈ cs
  · have hCount := List.count_pos_iff.mpr h
    exact .inl (by rw [line_after]; omega)
  · rw [after_of_notMem p h]
    exact .inr ⟨rfl, Nat.le_add_right _ _⟩

theorem place_le (before more : List Char) : place before ≤ place (before ++ more) := by
  rw [← after_place]
  exact le_after _ more

end Position

namespace Token

/-- Tokens one behind the other. -/
def InOrder (ts : List Token) : Prop := ts.Pairwise fun t u => t.stop ≤ u.pos

/-- The token is written down in the text, behind the text `before`. -/
def StandsIn (text before : List Char) (t : Token) : Prop :=
  before ++ t.lexeme.toList <+: text ∧ t.pos = Position.place before

variable {t : Token} {text before : List Char}

theorem pos_le_stop (t : Token) : t.pos ≤ t.stop := .inr ⟨rfl, Nat.le_add_right _ _⟩

/-- A token stops at the place behind its last character unless it has a line feed in it. -/
theorem stop_eq_iff (h : t.StandsIn text before) :
    t.stop = Position.place (before ++ t.lexeme.toList) ↔ '\n' ∉ t.lexeme.toList := by
  rw [← Position.after_place, ← h.2]
  constructor
  · intro hStop hFeed
    have hLine := congrArg Position.line hStop
    rw [Position.line_after] at hLine
    have hCount := List.count_pos_iff.mpr hFeed
    have hSame : t.stop.line = t.pos.line := rfl
    omega
  · intro hFeed
    rw [Position.after_of_notMem _ hFeed]
    rfl

theorem StandsIn.stop_le (h : t.StandsIn text before) :
    t.stop ≤ Position.place (before ++ t.lexeme.toList) := by
  by_cases hFeed : '\n' ∈ t.lexeme.toList
  · rw [← Position.after_place, ← h.2]
    have hCount := List.count_pos_iff.mpr hFeed
    refine .inl ?_
    rw [Position.line_after]
    exact Nat.lt_add_of_pos_right hCount
  · exact le_of_eq ((stop_eq_iff h).mpr hFeed)

end Token

namespace Cut

variable {source done rest : List Char} {tokens : List Token}

theorem prefix_source (h : Cut source done tokens rest) : done <+: source :=
  ⟨rest, h.append_eq⟩

/-- The tokens of a cut stand in the part that has been cut. -/
theorem standsIn (h : Cut source done tokens rest) :
    ∀ t ∈ tokens, ∃ before, t.StandsIn source before ∧ before ++ t.lexeme.toList <+: done := by
  have hWhole := h.prefix_source
  induction h with
  | start => exact nofun
  | @lexeme done t chars rest tokens kind literal cut trivia clear longest ih =>
    have hEarlier : done <+: done ++ t ++ chars := ⟨t ++ chars, by rw [List.append_assoc]⟩
    intro u hu
    rcases List.mem_append.mp hu with hu | hu
    · obtain ⟨before, hStands, hDone⟩ := ih (hEarlier.trans hWhole) u hu
      exact ⟨before, hStands, hDone.trans hEarlier⟩
    · obtain rfl := List.mem_singleton.mp hu
      refine ⟨done ++ t, ⟨?_, rfl⟩, ?_⟩
      · rwa [String.toList_ofList]
      · exact ⟨[], by rw [String.toList_ofList, List.append_nil]⟩

theorem stop_le (h : Cut source done tokens rest) : ∀ t ∈ tokens, t.stop ≤ Position.place done := by
  intro t ht
  obtain ⟨before, hStands, more, rfl⟩ := h.standsIn t ht
  exact hStands.stop_le.trans (Position.place_le _ _)

theorem inOrder (h : Cut source done tokens rest) : Token.InOrder tokens := by
  induction h with
  | start => exact .nil
  | @lexeme done t chars rest tokens kind literal cut trivia clear longest ih =>
    refine List.pairwise_append.mpr ⟨ih, List.pairwise_singleton _ _, fun u hu v hv => ?_⟩
    obtain rfl := List.mem_singleton.mp hv
    exact (cut.stop_le u hu).trans (Position.place_le _ _)

end Cut

namespace TokenStream

variable {source : String}

/-- The tokens of a source that is cut to its end stand one behind the other. -/
theorem inOrder_ofSource (h : (ofSource source).failure = none) :
    Token.InOrder (ofSource source).tokens := by
  obtain ⟨hStream, ⟨done, rest, hCut, -⟩, -⟩ := ofSource_eq h
  rw [hStream]
  refine List.pairwise_append.mpr ⟨hCut.inOrder, List.pairwise_singleton _ _, fun t ht u hu => ?_⟩
  obtain rfl := List.mem_singleton.mp hu
  have hEnd : Position.place done ≤ Position.place source.toList := by
    rw [← hCut.append_eq]
    exact Position.place_le _ _
  exact (hCut.stop_le t ht).trans hEnd

theorem standsIn_ofSource (h : (ofSource source).failure = none) :
    ∀ t ∈ (ofSource source).lexemes, ∃ before, t.StandsIn source.toList before := by
  obtain ⟨-, ⟨done, rest, hCut, -⟩, -⟩ := ofSource_eq h
  intro t ht
  obtain ⟨before, hStands, -⟩ := hCut.standsIn t ht
  exact ⟨before, hStands⟩

end TokenStream

end Tern
