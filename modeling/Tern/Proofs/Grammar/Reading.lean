import Tern.Proofs.Grammar.Taking

/-!
# What parsers accept

The counterpart of `Parser.Takes`: a parser accepts a row of terminals if it takes exactly that row
from every input that begins with it, whatever tokens the terminals come from. The lemmas follow the
ways in which parsers are put together.

* `Input.Ahead`: the terminals that an input has ahead, without trouble after them;
* `Parser.Reads`: the row that is taken, and what comes after it;
* `Parser.reads_chainUpTo`: a repetition reads round after round.
-/

namespace Tern

open Terminal (first isMark)

/-- The terminal that comes next, or else the end of input. -/
abbrev Terminal.ahead (ts : List Terminal) : Terminal := first ts (.mark .endOfInput)

open Terminal (ahead)

/-- The input has just these terminals ahead. No error is hidden behind them, and the input was not
shorter at the start. -/
structure Input.Ahead (s : Input) (ts : List Terminal) : Prop where
  terminals : s.terminals = ts
  failure : s.failure = none
  size : ts.length ≤ s.size

namespace Parser

variable {α β : Type}

/-- The parser takes the terminals `xs` where `rest` comes after them, and its result satisfies
`Q`. -/
def Reads (p : Parser α) (xs rest : List Terminal) (Q : α → Prop) : Prop :=
  ∀ s : Input, s.Ahead (xs ++ rest) → ∃ a s', p s = .ok (a, s') ∧ s'.Ahead rest ∧ Q a

variable {xs ys rest : List Terminal} {Q : α → Prop} {R : β → Prop}

theorem reads_pure {a : α} (h : Q a) : Reads (pure a) [] rest Q :=
  fun s hs => ⟨a, s, rfl, hs, h⟩

theorem bind_ok {p : Parser α} {g : α → Parser β} {s s' : Input} {a : α}
    (h : p s = .ok (a, s')) : (p >>= g) s = g a s' := by
  change (p s >>= fun q => g q.1 q.2) = _
  rw [h]
  rfl

theorem reads_bind {p : Parser α} {g : α → Parser β} (hp : Reads p xs (ys ++ rest) Q)
    (hg : ∀ a, Q a → Reads (g a) ys rest R) : Reads (p >>= g) (xs ++ ys) rest R := by
  intro s hs
  rw [List.append_assoc] at hs
  obtain ⟨a, s₁, hFirst, hs₁, ha⟩ := hp s hs
  obtain ⟨b, s₂, hThen, hs₂, hb⟩ := hg a ha s₁ hs₁
  exact ⟨b, s₂, (bind_ok hFirst).trans hThen, hs₂, hb⟩

/-- A parser that only looks. -/
theorem reads_look {p : Parser α} {g : α → Parser β} (hp : Reads p [] (xs ++ rest) Q)
    (hg : ∀ a, Q a → Reads (g a) xs rest R) : Reads (p >>= g) xs rest R :=
  reads_bind hp hg

theorem reads_mono {p : Parser α} {Q' : α → Prop} (h : Reads p xs rest Q)
    (hImp : ∀ a, Q a → Q' a) : Reads p xs rest Q' := by
  intro s hs
  obtain ⟨a, s', hRun, hs', ha⟩ := h s hs
  exact ⟨a, s', hRun, hs', hImp a ha⟩

/-- What comes last does not take anything. -/
theorem reads_bind_last {p : Parser α} {g : α → Parser β} (hp : Reads p xs rest Q)
    (hg : ∀ a, Q a → Reads (g a) [] rest R) : Reads (p >>= g) xs rest R := by
  rw [← List.append_nil xs]
  exact reads_bind (by simpa using hp) hg

theorem reads_bind_pure {p : Parser α} {g : α → β} (h : Reads p xs rest fun a => R (g a)) :
    Reads (p >>= fun a => pure (g a)) xs rest R :=
  reads_bind_last h fun _ ha => reads_pure ha

theorem reads_map {p : Parser α} {g : α → β} (h : Reads p xs rest fun a => R (g a)) :
    Reads (g <$> p) xs rest R := by
  rw [map_eq_pure_bind]
  exact reads_bind_pure h

theorem reads_if {c : Prop} [Decidable c] {p q : Parser α} (hc : c) (hp : Reads p xs rest Q) :
    Reads (if c then p else q) xs rest Q := by
  rwa [if_pos hc]

theorem reads_else {c : Prop} [Decidable c] {p q : Parser α} (hc : ¬c) (hq : Reads q xs rest Q) :
    Reads (if c then p else q) xs rest Q := by
  rwa [if_neg hc]

/-! ## Tokens -/

theorem reads_peek : Reads peek [] xs fun t => t.terminal = ahead xs := by
  intro s hs
  have hFailure := hs.failure
  have hTerminals : Token.terminals s.rest = xs := hs.terminals
  cases hRest : s.rest with
  | nil =>
    have hPeek : peek s = .ok (s.missingEnd, s) := by
      unfold peek
      simp only [hRest, hFailure]
    rw [hRest] at hTerminals
    exact ⟨_, s, hPeek, hs, by rw [← hTerminals]; rfl⟩
  | cons t ts =>
    have hPeek : peek s = .ok (t, s) := by
      unfold peek
      simp only [hRest]
    refine ⟨t, s, hPeek, hs, ?_⟩
    rw [← hTerminals, hRest]
    by_cases hKind : t.kind = .endOfInput
    · simp [Token.terminals_end hKind, Token.terminal, hKind]
    · rw [Token.terminals_cons hKind]
      rfl

theorem reads_peek_bind {g : Token → Parser β}
    (hg : ∀ t, t.terminal = ahead (xs ++ rest) → Reads (g t) xs rest R) :
    Reads (peek >>= g) xs rest R :=
  reads_look reads_peek hg

theorem reads_advance {t : Terminal} (ht : t.kind ≠ .endOfInput) :
    Reads advance [t] rest fun u => u.terminal = t := by
  intro s hs
  have hAhead : s.ahead = t := by
    rw [Input.ahead, hs.terminals]
    rfl
  obtain ⟨u, hRest, hKind, hTerminal, hTaken⟩ := Input.exists_of_ahead (hAhead ▸ ht)
  have hLater : Token.terminals s.rest.tail = rest := by
    rw [hs.terminals] at hTaken
    exact (List.cons.inj hTaken).2.symm
  refine ⟨u, _, advance_cons hRest hKind, ⟨hLater, hs.failure, ?_⟩, hTerminal.trans hAhead⟩
  exact Nat.le_of_succ_le hs.size

theorem reads_advance_bind {t : Terminal} {g : Token → Parser β} (ht : t.kind ≠ .endOfInput)
    (hg : ∀ u, u.terminal = t → Reads (g u) xs rest R) : Reads (advance >>= g) (t :: xs) rest R :=
  reads_bind (reads_advance ht) hg

/-- A token that says no more than its kind. -/
theorem reads_expect_bind {kind : TokenKind} {wanted : String} {g : Token → Parser β}
    (hMark : isMark kind = true) (hg : ∀ u, Reads (g u) xs rest R) :
    Reads (expect kind wanted >>= g) (.mark kind :: xs) rest R := by
  have hExpect : Reads (expect kind wanted) [.mark kind] (xs ++ rest) fun _ => True := by
    refine reads_peek_bind fun t ht => reads_if ?_ ?_
    · rw [← Token.kind_terminal, ht]
      rfl
    · exact reads_mono (reads_advance (Terminal.ne_end_of_isMark hMark)) fun _ _ => trivial
  exact reads_bind hExpect fun u _ => hg u

theorem reads_ident_bind {word wanted : String} {g : Ident → Parser β}
    (hg : ∀ id : Ident, id.name = word → Reads (g id) xs rest R) :
    Reads (ident wanted >>= g) (.name word :: xs) rest R := by
  have hExpect : Reads (expect .identifier wanted) [.name word] (xs ++ rest) fun u =>
      u.terminal = .name word := by
    refine reads_peek_bind fun t ht => reads_if ?_ (reads_advance nofun)
    rw [← Token.kind_terminal, ht]
    rfl
  have hIdent :
      Reads (ident wanted) ([.name word] ++ []) (xs ++ rest) fun id => id.name = word := by
    refine reads_bind hExpect fun u hu => ?_
    have hKind : u.kind = .identifier := by rw [← Token.kind_terminal, hu]; rfl
    rw [Token.terminal_name hKind] at hu
    intro s hs
    exact ⟨_, s, rfl, hs, Terminal.name.inj hu⟩
  exact reads_bind hIdent hg

theorem reads_spanFrom_bind {start : Token} {g : Option Span → Parser β}
    (hg : ∀ s, Reads (g s) xs rest R) : Reads (spanFrom start >>= g) xs rest R := by
  have hSpan : Reads (spanFrom start) [] (xs ++ rest) fun _ => True :=
    fun s hs => ⟨_, s, rfl, hs, trivial⟩
  exact reads_look hSpan fun s _ => hg s

theorem reads_check_bind {kind : TokenKind} {g : Bool → Parser β}
    (hg : Reads (g (decide ((ahead (xs ++ rest)).kind = kind))) xs rest R) :
    Reads (check kind >>= g) xs rest R := by
  have hCheck : Reads (check kind) [] (xs ++ rest) fun b =>
      b = decide ((ahead (xs ++ rest)).kind = kind) := by
    refine reads_look reads_peek fun t ht => reads_pure ?_
    rw [List.nil_append] at ht
    rw [← ht, Token.kind_terminal]
  refine reads_look hCheck fun b hb => ?_
  rw [hb]
  exact hg

/-- A token that is there. -/
theorem reads_accept_bind {kind : TokenKind} {g : Bool → Parser β} (hMark : isMark kind = true)
    (hg : Reads (g true) xs rest R) : Reads (accept kind >>= g) (.mark kind :: xs) rest R := by
  have hAccept : Reads (accept kind) [.mark kind] (xs ++ rest) fun b => b = true := by
    refine reads_check_bind (reads_if (decide_eq_true rfl) ?_)
    exact reads_advance_bind (Terminal.ne_end_of_isMark hMark) fun _ _ => reads_pure rfl
  refine reads_bind hAccept fun b hb => ?_
  rw [hb]
  exact hg

/-- A token that is not there. -/
theorem reads_skip_bind {kind : TokenKind} {g : Bool → Parser β}
    (hKind : (ahead (xs ++ rest)).kind ≠ kind) (hg : Reads (g false) xs rest R) :
    Reads (accept kind >>= g) xs rest R := by
  have hSkip : Reads (accept kind) [] (xs ++ rest) fun b => b = false := by
    refine reads_check_bind (reads_else ?_ (reads_pure rfl))
    rw [List.nil_append, decide_eq_true_eq]
    exact hKind
  refine reads_look hSkip fun b hb => ?_
  rw [hb]
  exact hg

theorem reads_acceptAs {wanted : TokenKind → Option β} {kind : TokenKind} {b : β}
    (hMark : isMark kind = true) (hb : wanted kind = some b) :
    Reads (acceptAs wanted) [.mark kind] rest fun b' => b' = some b := by
  refine reads_peek_bind fun t ht => ?_
  have hKind : t.kind = kind := by
    rw [← Token.kind_terminal, ht]
    rfl
  rw [hKind, hb]
  exact reads_advance_bind (Terminal.ne_end_of_isMark hMark) fun _ _ => reads_pure rfl

theorem reads_acceptAs_none {wanted : TokenKind → Option β}
    (hNone : wanted (ahead rest).kind = none) :
    Reads (acceptAs wanted) [] rest fun b' => b' = none := by
  refine reads_peek_bind fun t ht => ?_
  have hKind : t.kind = (ahead rest).kind := by
    rw [← Token.kind_terminal, ht]
    rfl
  rw [hKind, hNone]
  exact reads_pure rfl

theorem reads_atClose_bind {g : Bool → Parser β}
    (hg : Reads (g (decide ((ahead (xs ++ rest)).kind = .rightBrace ∨
      (ahead (xs ++ rest)).kind = .endOfInput))) xs rest R) :
    Reads (atClose >>= g) xs rest R := by
  have hClose : Reads atClose [] (xs ++ rest) fun b =>
      b = decide ((ahead (xs ++ rest)).kind = .rightBrace ∨
        (ahead (xs ++ rest)).kind = .endOfInput) := by
    refine reads_look reads_peek fun t ht => reads_pure ?_
    rw [List.nil_append] at ht
    rw [← ht, Token.kind_terminal, Bool.decide_or]
  refine reads_look hClose fun b hb => ?_
  rw [hb]
  exact hg

/-! ## Repetition -/

/-- A repetition reads round after round. The invariant relates what has been made so far to the
terminals that are still to be read. -/
theorem reads_chainUpTo {more : Parser (Option β)} {step : α → β → Parser α}
    {I : α → List Terminal → Prop}
    (hRound : ∀ a zs, I a zs →
      (zs = [] ∧ Q a ∧ Reads more [] rest fun b => b = none) ∨
      ∃ us vs ws b, zs = us ++ (vs ++ ws) ∧ us ++ vs ≠ [] ∧
        (Reads more us (vs ++ (ws ++ rest)) fun b' => b' = some b) ∧
        Reads (step a b) vs (ws ++ rest) fun a' => I a' ws)
    (fuel : Nat) (a : α) (xs : List Terminal) (hI : I a xs) (hFuel : xs.length < fuel) :
    Reads (chainUpTo more step fuel a) xs rest Q := by
  induction fuel generalizing a xs with
  | zero => cases hFuel
  | succ fuel ih =>
    rcases hRound a xs hI with ⟨rfl, hQ, hStop⟩ | ⟨us, vs, ws, b, rfl, hSome, hMore, hStep⟩
    · refine reads_look hStop fun b hb => ?_
      rw [hb]
      exact reads_pure hQ
    · refine reads_bind (by rwa [List.append_assoc]) fun b' hb' => ?_
      rw [hb']
      refine reads_bind hStep fun a' ha' => ih a' ws ha' ?_
      have hPos := List.length_pos_iff.mpr hSome
      simp only [List.length_append] at hFuel hPos
      omega

theorem reads_chain {more : Parser (Option β)} {step : α → β → Parser α}
    {I : α → List Terminal → Prop}
    (hRound : ∀ a zs, I a zs →
      (zs = [] ∧ Q a ∧ Reads more [] rest fun b => b = none) ∨
      ∃ us vs ws b, zs = us ++ (vs ++ ws) ∧ us ++ vs ≠ [] ∧
        (Reads more us (vs ++ (ws ++ rest)) fun b' => b' = some b) ∧
        Reads (step a b) vs (ws ++ rest) fun a' => I a' ws)
    {a : α} (hI : I a xs) : Reads (chain more step a) xs rest Q := by
  intro s hs
  have hLength : xs.length ≤ s.size := by
    have hSize := hs.size
    rw [List.length_append] at hSize
    omega
  exact reads_chainUpTo hRound (s.size + 1) a xs hI (Nat.lt_succ_of_le hLength) s hs

end Parser

end Tern
