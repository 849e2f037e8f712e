import Tern.Proofs.Grammar.Canonical
import Tern.Proofs.Grammar.Ending

/-!
# Two runs and a semicolon

A parser is run on two rows of tokens. The first one has a semicolon before a closing brace or the
end of input, and the second one is the same row without it. The runs take the same tokens up to
that place. There a statement is ended by the semicolon in the first run, and by what closes it in
the second, and behind the semicolon both have the same ahead. Elsewhere nothing goes on there in
either run, except that the second one may end a row of statements, where the first one has a
semicolon for a statement. That does not happen if the token before the place leaves a statement
open, which is what a gap can be held to.

* `Gap`: the place of the semicolon;
* `Gap.Abreast`, `Gap.Behind`: the runs before and behind it;
* `Gap.Slides`: a parser that does the same in both runs;
* `Parser.Balks`: a parser that fails where a statement ends;
* `Gap.slides_chain`, `Gap.slides_loop`: repetitions.
-/

namespace Tern

open Terminal (leavesOpen)

/-- The kinds that end a row of statements. -/
def TokenKind.endsRow : TokenKind → Bool
  | .rightBrace | .endOfInput => true
  | _ => false

/-- The kinds that end a statement, or a row of them. -/
def TokenKind.terminates : TokenKind → Bool
  | .semicolon => true
  | kind => kind.endsRow

theorem TokenKind.ne_end_of_terminates {kind : TokenKind} (h : kind.terminates = false) :
    kind ≠ .endOfInput := by
  rintro rfl
  cases h

/-! ## Failing where a statement ends -/

namespace Parser

variable {α β : Type} {p : Parser α} {f : α → Parser β} {kind : TokenKind} {wanted : String}
  {s : Input} {t : Token} {rest : List Token}

theorem check_cons (hRest : s.rest = t :: rest) :
    check kind s = .ok (decide (t.kind = kind), s) := by
  unfold check
  rw [bind_ok (peek_cons hRest)]
  rfl

theorem accept_other (hRest : s.rest = t :: rest) (hKind : t.kind ≠ kind) :
    accept kind s = .ok (false, s) := by
  unfold accept
  rw [bind_ok (check_cons hRest), decide_eq_false hKind]
  rfl

theorem accept_cons (hRest : s.rest = t :: s.rest.tail) (hKind : t.kind = kind)
    (hEnd : kind ≠ .endOfInput) :
    accept kind s = .ok (true, { s with rest := s.rest.tail, last := some t }) := by
  unfold accept
  rw [bind_ok (check_cons hRest), decide_eq_true hKind, if_pos rfl,
    bind_ok (advance_cons hRest (hKind ▸ hEnd))]
  rfl

/-- The parser fails where a statement, or a row of them, ends. -/
def Balks (p : Parser α) : Prop :=
  ∀ (s : Input) (t : Token) (rest : List Token), s.rest = t :: rest → t.kind.terminates = true →
    ∃ e, p s = .error e

theorem Balks.bind (h : Balks p) : Balks (p >>= f) := by
  intro s t rest hRest hKind
  obtain ⟨e, he⟩ := h s t rest hRest hKind
  exact ⟨e, bind_error he⟩

theorem Balks.map {k : α → β} (h : Balks p) : Balks (k <$> p) := by
  rw [map_eq_pure_bind]
  exact h.bind

theorem balks_failAt {cause : ParseCause} : Balks (failAt t cause : Parser α) :=
  fun _ _ _ _ _ => ⟨_, rfl⟩

theorem balks_peek_bind {f : Token → Parser β}
    (h : ∀ t, t.kind.terminates = true → Balks (f t)) : Balks (peek >>= f) := by
  intro s t rest hRest hKind
  rw [bind_ok (peek_cons hRest)]
  exact h t hKind s t rest hRest hKind

theorem ne_of_terminates {kind' : TokenKind} (h : kind.terminates = true)
    (hPlain : kind'.terminates = false) : kind ≠ kind' := by
  rintro rfl
  rw [hPlain] at h
  cases h

theorem balks_expect (hPlain : kind.terminates = false) : Balks (expect kind wanted) := by
  refine balks_peek_bind fun t ht => ?_
  rw [if_neg (ne_of_terminates ht hPlain)]
  exact balks_failAt

theorem balks_check_bind {f : Bool → Parser β} (hPlain : kind.terminates = false)
    (h : Balks (f false)) : Balks (check kind >>= f) := by
  intro s t rest hRest ht
  rw [bind_ok (check_cons hRest), decide_eq_false (ne_of_terminates ht hPlain)]
  exact h s t rest hRest ht

end Parser

/-! ## Gaps -/

/-- A semicolon, what closes a row of statements behind it, and the tokens after that. If the gap is
held, the token before it leaves a statement open. -/
structure Gap where
  semi : Token
  close : Token
  later : List Token
  held : Prop
  isSemi : semi.kind = .semicolon
  closes : close.kind.endsRow = true
  ends : ∃ t ∈ close :: later, t.kind = .endOfInput

namespace Gap

variable (G : Gap)

/-- What is ahead where the semicolon stands. -/
def left : List Token := G.semi :: G.close :: G.later

/-- What is ahead where it does not stand. -/
def right : List Token := G.close :: G.later

/-- Rows that are the same but for the semicolon, behind the token `last`. -/
inductive Rows : Option Token → List Token → List Token → Prop where
  | gap {last : Option Token}
      (hOpen : G.held → ∃ t, last = some t ∧ leavesOpen t.kind = true) : Rows last G.left G.right
  | cons {last : Option Token} {t : Token} {rest rest' : List Token}
      (hRest : Rows (some t) rest rest') : Rows last (t :: rest) (t :: rest')
  | same {last : Option Token} {rest : List Token}
      (hEnd : ∃ t ∈ rest, t.kind = .endOfInput) : Rows last rest rest

/-- The runs have taken the same tokens, and have at most `n` ahead. -/
structure Abreast (n : Nat) (s u : Input) : Prop where
  rows : G.Rows s.last s.rest u.rest
  last : u.last = s.last
  le : s.rest.length ≤ n
  left_size : s.rest.length ≤ s.size
  right_size : u.rest.length ≤ u.size

/-- The runs have the same token ahead. -/
structure Ahead (n : Nat) (t : Token) (s u : Input) : Prop where
  left : s.rest = t :: s.rest.tail
  right : u.rest = t :: u.rest.tail
  later : t.kind ≠ .endOfInput → G.Rows (some t) s.rest.tail u.rest.tail
  le : s.rest.length ≤ n
  left_size : s.rest.length ≤ s.size
  right_size : u.rest.length ≤ u.size

/-- The runs have taken the same tokens, and have the same token ahead. -/
structure Sees (n : Nat) (t : Token) (s u : Input) : Prop where
  abreast : G.Abreast n s u
  ahead : G.Ahead n t s u

/-- The runs have just taken a token. -/
structure Took (n : Nat) (t : Token) (s u : Input) : Prop where
  abreast : G.Abreast n s u
  last : s.last = some t

/-- The runs are not at the gap if it is held. -/
structure Clear (n : Nat) (s u : Input) : Prop where
  abreast : G.Abreast n s u
  seen : G.held → ∃ t, s.rest.head? = some t ∧ u.rest.head? = some t

/-- The first run has taken the semicolon, and both have the same ahead. -/
structure Behind (n : Nat) (s u : Input) : Prop where
  left_rest : s.rest = G.right
  right_rest : u.rest = G.right
  le : s.rest.length ≤ n
  left_size : s.rest.length ≤ s.size
  right_size : u.rest.length ≤ u.size

/-- A statement is over in both runs. -/
def Ended (n : Nat) (s u : Input) : Prop := G.Behind n s u ∨ G.Clear n s u

/-- A row of statements is over in both runs: a kind that stops it is ahead. -/
def Stopped (stop : TokenKind → Bool) (n : Nat) (s u : Input) : Prop :=
  ∃ t, G.Ahead n t s u ∧ stop t.kind = true

/-- How two runs end: with the same result, or both with errors. Nothing is said about the second
run if the first one fails and the gap is not held. -/
inductive Outcome {α : Type} (post : Input → Input → Prop) :
    Except SyntaxError (α × Input) → Except SyntaxError (α × Input) → Prop where
  | done {a : α} {s u : Input} (hPost : post s u) : Outcome post (.ok (a, s)) (.ok (a, u))
  | failed {e e' : SyntaxError} : Outcome post (.error e) (.error e')
  | broken {e : SyntaxError} {r : Except SyntaxError (α × Input)} (hFree : ¬G.held) :
      Outcome post (.error e) r

/-- Run from states related by `pre`, the parser ends with the same result in states related by
`post`, or with errors. -/
def Slides {α : Type} (pre : Input → Input → Prop) (p : Parser α) (post : Input → Input → Prop) :
    Prop :=
  ∀ s u, pre s u → G.Outcome post (p s) (p u)

variable {G}

/-! ## States -/

section

variable {n m : Nat} {s u : Input} {t : Token} {last : Option Token} {rest rest' : List Token}

theorem close_kind (G : Gap) : G.close.kind = .rightBrace ∨ G.close.kind = .endOfInput := by
  have hCloses := G.closes
  generalize G.close.kind = kind at hCloses
  cases kind <;> first | exact .inl rfl | exact .inr rfl | cases hCloses

theorem close_ne_semicolon (G : Gap) : G.close.kind ≠ .semicolon := by
  rcases G.close_kind with h | h <;> rw [h] <;> nofun

theorem close_terminates (G : Gap) : G.close.kind.terminates = true := by
  rcases G.close_kind with h | h <;> rw [h] <;> rfl

theorem semi_terminates (G : Gap) : G.semi.kind.terminates = true := by
  rw [G.isSemi]
  rfl

theorem semi_ne_close (G : Gap) : G.semi ≠ G.close := by
  intro h
  have hKind := G.isSemi
  rw [h] at hKind
  exact G.close_ne_semicolon hKind

theorem Rows.length_le (h : G.Rows last rest rest') : rest.length ≤ rest'.length + 1 := by
  induction h with
  | gap => exact Nat.le_refl _
  | cons _ ih => exact Nat.succ_le_succ ih
  | same => exact Nat.le_succ _

/-- More tokens that both rows begin with. -/
theorem Rows.behind (before : List Token) (h : G.Rows (before.getLast?.or last) rest rest') :
    G.Rows last (before ++ rest) (before ++ rest') := by
  induction before generalizing last with
  | nil => exact h
  | cons t before ih =>
    refine .cons (ih ?_)
    rw [List.getLast?_cons] at h
    cases hLast : before.getLast? with
    | none => simpa [hLast] using h
    | some u => simpa [hLast] using h

/-- What is the same up to an end of input has a token ahead. -/
theorem ahead_of_same (hRest : s.rest = rest) (hRest' : u.rest = rest)
    (hEnd : ∃ t ∈ rest, t.kind = .endOfInput) (hLe : s.rest.length ≤ n)
    (hLeft : s.rest.length ≤ s.size) (hRight : u.rest.length ≤ u.size) :
    ∃ t, rest.head? = some t ∧ G.Ahead n t s u := by
  cases rest with
  | nil => obtain ⟨_, hMem, -⟩ := hEnd; cases hMem
  | cons t rest =>
    refine ⟨t, rfl, by rw [hRest]; rfl, by rw [hRest']; rfl, fun hKind => ?_, hLe, hLeft, hRight⟩
    rw [hRest, hRest']
    obtain ⟨v, hMem, hv⟩ := hEnd
    rcases List.mem_cons.mp hMem with rfl | hMem
    · exact absurd hv hKind
    · exact .same ⟨v, hMem, hv⟩

theorem Abreast.rebase (h : G.Abreast n s u) (hLe : s.rest.length ≤ m) : G.Abreast m s u :=
  { h with le := hLe }

theorem Clear.rebase (h : G.Clear n s u) (hLe : s.rest.length ≤ m) : G.Clear m s u :=
  { h with abreast := h.abreast.rebase hLe }

theorem Ended.rebase (h : G.Ended n s u) (hLe : s.rest.length ≤ m) : G.Ended m s u :=
  h.imp (fun h => { h with le := hLe }) fun h => h.rebase hLe

theorem Abreast.succ (h : G.Abreast n s u) : G.Abreast (n + 1) s u :=
  h.rebase (Nat.le_succ_of_le h.le)

theorem Sees.succ (h : G.Sees n t s u) : G.Sees (n + 1) t s u :=
  ⟨h.abreast.succ, { h.ahead with le := Nat.le_succ_of_le h.ahead.le }⟩

/-- The runs are at the gap, or have the same token ahead. -/
theorem Abreast.cases (h : G.Abreast n s u) :
    (s.rest = G.left ∧ u.rest = G.right ∧
      (G.held → ∃ t, s.last = some t ∧ leavesOpen t.kind = true)) ∨ ∃ t, G.Sees n t s u := by
  have hRows := h.rows
  generalize hLeft : s.rest = row at hRows
  generalize hRight : u.rest = row' at hRows
  cases hRows with
  | gap hOpen => exact .inl ⟨rfl, rfl, hOpen⟩
  | @cons _ t rest rest' hRest =>
    refine .inr ⟨t, h, by rw [hLeft]; rfl, by rw [hRight]; rfl, fun _ => ?_, h.le, h.left_size,
      h.right_size⟩
    rw [hLeft, hRight]
    exact hRest
  | same hEnd =>
    obtain ⟨t, -, hAhead⟩ := ahead_of_same hLeft hRight hEnd h.le h.left_size h.right_size
    exact .inr ⟨t, h, hAhead⟩

theorem Abreast.pos (h : G.Abreast n s u) : 0 < s.rest.length := by
  rcases h.cases with ⟨hLeft, -, -⟩ | ⟨t, hSees⟩
  · rw [hLeft]
    exact Nat.succ_pos _
  · rw [hSees.ahead.left]
    exact Nat.succ_pos _

/-- The runs take the token that both have ahead. -/
theorem Ahead.take (h : G.Ahead (n + 1) t s u) (hKind : t.kind ≠ .endOfInput) :
    G.Took n t { s with rest := s.rest.tail, last := some t }
      { u with rest := u.rest.tail, last := some t } := by
  obtain ⟨hLeft, hRight, hLater, hLe, hSize, hSize'⟩ := h
  rw [hLeft] at hLe hSize
  rw [hRight] at hSize'
  exact ⟨⟨hLater hKind, rfl, Nat.le_of_succ_le_succ hLe, Nat.le_of_succ_le hSize,
    Nat.le_of_succ_le hSize'⟩, rfl⟩

theorem Behind.ahead (h : G.Behind n s u) : G.Ahead n G.close s u := by
  obtain ⟨t, ht, hAhead⟩ :=
    ahead_of_same h.left_rest h.right_rest G.ends h.le h.left_size h.right_size
  cases ht
  exact hAhead

theorem Ended.pos (h : G.Ended n s u) : 0 < s.rest.length := by
  rcases h with hBehind | hClear
  · rw [hBehind.left_rest]
    exact Nat.succ_pos _
  · exact hClear.abreast.pos

theorem Ended.sizes (h : G.Ended n s u) :
    s.rest.length ≤ n ∧ s.rest.length ≤ s.size ∧ s.rest.length ≤ u.size + 1 := by
  rcases h with hBehind | hClear
  · have hRight := hBehind.right_size
    rw [hBehind.right_rest, ← hBehind.left_rest] at hRight
    exact ⟨hBehind.le, hBehind.left_size, Nat.le_succ_of_le hRight⟩
  · have hAbreast := hClear.abreast
    exact ⟨hAbreast.le, hAbreast.left_size,
      Nat.le_trans hAbreast.rows.length_le (Nat.succ_le_succ hAbreast.right_size)⟩

theorem Sees.clear (h : G.Sees n t s u) : G.Clear n s u :=
  ⟨h.abreast, fun _ => ⟨t, by rw [h.ahead.left]; rfl, by rw [h.ahead.right]; rfl⟩⟩

/-- A gap that is held is not where the runs are. -/
theorem Clear.cases (h : G.Clear n s u) :
    (¬G.held ∧ s.rest = G.left) ∨ ∃ t, G.Sees n t s u := by
  rcases h.abreast.cases with ⟨hLeft, hRight, -⟩ | hSees
  · refine .inl ⟨fun hHeld => ?_, hLeft⟩
    obtain ⟨t, ht, ht'⟩ := h.seen hHeld
    rw [hLeft] at ht
    rw [hRight] at ht'
    exact G.semi_ne_close (Option.some.inj (ht.trans ht'.symm))
  · exact .inr hSees

/-- Behind a token that leaves no statement open, the runs are not at a gap that is held. -/
theorem Took.clear (h : G.Took n t s u) (hKind : leavesOpen t.kind = false) : G.Clear n s u := by
  rcases h.abreast.cases with ⟨-, -, hOpen⟩ | ⟨v, hSees⟩
  · refine ⟨h.abreast, fun hHeld => ?_⟩
    obtain ⟨v, hv, hOpen⟩ := hOpen hHeld
    obtain rfl : t = v := Option.some.inj (h.last.symm.trans hv)
    rw [hKind] at hOpen
    cases hOpen
  · exact hSees.clear

end

/-! ## Results -/

section

variable {α β : Type} {pre pre' mid post post' : Input → Input → Prop} {p q : Parser α}
  {f g : α → Parser β}

theorem Outcome.bind {x y : Except SyntaxError (α × Input)} (h : G.Outcome mid x y)
    (hf : ∀ a s u, mid s u → G.Outcome post (f a s) (g a u)) :
    G.Outcome post (x >>= fun q => f q.1 q.2) (y >>= fun q => g q.1 q.2) := by
  cases h with
  | done hMid => exact hf _ _ _ hMid
  | failed => exact .failed
  | broken hFree => exact .broken hFree

theorem Outcome.mono {x y : Except SyntaxError (α × Input)} (h : G.Outcome post' x y)
    (hPost : ∀ s u, post' s u → post s u) : G.Outcome post x y := by
  cases h with
  | done hEnd => exact .done (hPost _ _ hEnd)
  | failed => exact .failed
  | broken hFree => exact .broken hFree

theorem slides_pure {a : α} (h : ∀ s u, pre s u → post s u) : G.Slides pre (pure a) post :=
  fun s u hPre => .done (h s u hPre)

theorem slides_fails (h : ∀ s, ∃ e, p s = .error e) : G.Slides pre p post := by
  intro s u _
  obtain ⟨e, he⟩ := h s
  obtain ⟨e', he'⟩ := h u
  rw [he, he']
  exact .failed

theorem slides_failAt {t : Token} {cause : ParseCause} :
    G.Slides pre (Parser.failAt t cause : Parser α) post :=
  slides_fails fun _ => ⟨_, rfl⟩

theorem slides_bind (hp : G.Slides pre p mid) (hf : ∀ a, G.Slides mid (f a) post) :
    G.Slides pre (p >>= f) post :=
  fun s u hPre => (hp s u hPre).bind fun a s' u' hMid => hf a s' u' hMid

theorem slides_mono (h : G.Slides pre' p post') (hPre : ∀ s u, pre s u → pre' s u)
    (hPost : ∀ s u, post' s u → post s u) : G.Slides pre p post :=
  fun s u hHere => (h s u (hPre s u hHere)).mono hPost

theorem slides_from (hPre : ∀ s u, pre s u → pre' s u) (h : G.Slides pre' p post) :
    G.Slides pre p post :=
  slides_mono h hPre fun _ _ h => h

theorem slides_map {k : α → β} (h : G.Slides pre p post) : G.Slides pre (k <$> p) post := by
  rw [map_eq_pure_bind]
  exact slides_bind h fun _ => slides_pure fun _ _ h => h

theorem slides_ite {c : Prop} [Decidable c] (hp : c → G.Slides pre p post)
    (hq : ¬c → G.Slides pre q post) : G.Slides pre (if c then p else q) post := by
  split
  · exact hp ‹_›
  · exact hq ‹_›

end

/-! ## Tokens -/

section

open Tern.Parser

variable {α β : Type} {pre post : Input → Input → Prop} {p : Parser α} {n : Nat} {t : Token}
  {kind : TokenKind} {wanted : String}

/-- The parser fails at the gap, with the semicolon as without it. -/
def Stuck (G : Gap) (p : Parser α) : Prop :=
  ∀ s : Input, s.rest = G.left ∨ s.rest = G.right → ∃ e, p s = .error e

theorem stuck_of_balks (h : Balks p) : G.Stuck p := by
  rintro s (hRest | hRest)
  · exact h s _ _ hRest G.semi_terminates
  · exact h s _ _ hRest G.close_terminates

/-- A parser that fails at the gap need only be run where the same token is ahead. -/
theorem slides_of_stuck (hStuck : G.Stuck p) (h : ∀ t, G.Slides (G.Sees n t) p post) :
    G.Slides (G.Abreast n) p post := by
  intro s u hAbreast
  rcases hAbreast.cases with ⟨hLeft, hRight, -⟩ | ⟨t, hSees⟩
  · obtain ⟨e, he⟩ := hStuck s (.inl hLeft)
    obtain ⟨e', he'⟩ := hStuck u (.inr hRight)
    rw [he, he']
    exact .failed
  · exact h t s u hSees

theorem slides_of_balks (hBalks : Balks p) (h : ∀ t, G.Slides (G.Sees n t) p post) :
    G.Slides (G.Abreast n) p post :=
  slides_of_stuck (stuck_of_balks hBalks) h

/-- A parser that takes something can be run with any bound on what is ahead. -/
theorem slides_of_succ (h : ∀ n, G.Slides (G.Abreast (n + 1)) p (G.Abreast n)) :
    G.Slides (G.Abreast n) p (G.Abreast n) :=
  slides_from (fun _ _ h => h.succ) (h n)

theorem slides_peek_bind {f : Token → Parser β} (h : G.Slides (G.Sees n t) (f t) post) :
    G.Slides (G.Sees n t) (peek >>= f) post := by
  intro s u hSees
  rw [bind_ok (peek_cons hSees.ahead.left), bind_ok (peek_cons hSees.ahead.right)]
  exact h s u hSees

theorem slides_take_bind {f : Token → Parser β} (hKind : t.kind ≠ .endOfInput)
    (h : G.Slides (G.Took n t) (f t) post) : G.Slides (G.Ahead (n + 1) t) (advance >>= f) post := by
  intro s u hAhead
  rw [bind_ok (advance_cons hAhead.left hKind), bind_ok (advance_cons hAhead.right hKind)]
  exact h _ _ (hAhead.take hKind)

theorem slides_advance_bind {f : Token → Parser β} (hKind : t.kind ≠ .endOfInput)
    (h : G.Slides (G.Abreast n) (f t) post) :
    G.Slides (G.Sees (n + 1) t) (advance >>= f) post :=
  slides_from (fun _ _ h => h.ahead)
    (slides_take_bind hKind (slides_from (fun _ _ h => h.abreast) h))

/-- A token that is checked for where the same token is ahead. -/
theorem slides_seen_check_bind {f : Bool → Parser β}
    (h : ∀ b, G.Slides (G.Sees n t) (f b) post) :
    G.Slides (G.Sees n t) (check kind >>= f) post := by
  intro s u hSees
  rw [bind_ok (check_cons hSees.ahead.left), bind_ok (check_cons hSees.ahead.right)]
  exact h _ s u hSees

/-- A token that is checked for, of a kind that is not found at the gap. -/
theorem slides_check_bind {f : Bool → Parser β} (hPlain : kind.terminates = false)
    (hPre : ∀ s u, pre s u → G.Abreast n s u) (hNo : G.Slides pre (f false) post)
    (hYes : ∀ t, t.kind = kind → G.Slides (G.Sees n t) (f true) post) :
    G.Slides pre (check kind >>= f) post := by
  intro s u hHere
  rcases (hPre s u hHere).cases with ⟨hLeft, hRight, -⟩ | ⟨t, hSees⟩
  · rw [bind_ok (check_cons hLeft), bind_ok (check_cons hRight),
      decide_eq_false (ne_of_terminates G.semi_terminates hPlain),
      decide_eq_false (ne_of_terminates G.close_terminates hPlain)]
    exact hNo s u hHere
  · rw [bind_ok (check_cons hSees.ahead.left), bind_ok (check_cons hSees.ahead.right)]
    by_cases hKind : t.kind = kind
    · rw [decide_eq_true hKind]
      exact hYes t hKind s u hSees
    · rw [decide_eq_false hKind]
      exact hNo s u hHere

theorem slides_accept_bind {f : Bool → Parser β} (hPlain : kind.terminates = false)
    (hPre : ∀ s u, pre s u → G.Abreast n s u) (hNo : G.Slides pre (f false) post)
    (hYes : G.Slides (G.Abreast n) (f true) post) : G.Slides pre (accept kind >>= f) post := by
  unfold accept
  rw [bind_assoc]
  refine slides_check_bind hPlain hPre hNo fun t hKind => ?_
  simp only [if_true, bind_assoc, pure_bind]
  exact slides_from (fun _ _ h => h.succ)
    (slides_advance_bind (hKind ▸ TokenKind.ne_end_of_terminates hPlain) hYes)

/-- A token that is wanted where the same token is ahead. -/
theorem slides_seen_expect_bind {f : Token → Parser β} (hEnd : kind ≠ .endOfInput)
    (h : t.kind = kind → G.Slides (G.Took n t) (f t) post) :
    G.Slides (G.Sees (n + 1) t) (expect kind wanted >>= f) post := by
  unfold expect
  rw [bind_assoc]
  refine slides_peek_bind ?_
  split
  · next hKind =>
    exact slides_from (fun _ _ h => h.ahead) (slides_take_bind (hKind ▸ hEnd) (h hKind))
  · exact slides_fails fun s => ⟨_, bind_error rfl⟩

/-- A token that is wanted, of a kind that is not found at the gap. -/
theorem slides_expect_bind {f : Token → Parser β} (hPlain : kind.terminates = false)
    (h : ∀ t, t.kind = kind → G.Slides (G.Took n t) (f t) post) :
    G.Slides (G.Abreast (n + 1)) (expect kind wanted >>= f) post :=
  slides_of_balks (balks_expect hPlain).bind fun t =>
    slides_seen_expect_bind (TokenKind.ne_end_of_terminates hPlain) (h t)

theorem slides_spanFrom_bind {start : Token} {f : Option Span → Parser β}
    (hLast : ∀ s u, pre s u → u.last = s.last) (h : ∀ v, G.Slides pre (f v) post) :
    G.Slides pre (spanFrom start >>= f) post := by
  intro s u hPre
  change G.Outcome post (f (some ⟨start.pos, (s.last.getD start).stop⟩) s)
    (f (some ⟨start.pos, (u.last.getD start).stop⟩) u)
  rw [hLast s u hPre]
  exact h _ s u hPre

/-- A token that is wanted somewhere in the middle. -/
theorem slides_middle_bind {f : Token → Parser β} (hPlain : kind.terminates = false)
    (h : ∀ t, G.Slides (G.Abreast n) (f t) post) :
    G.Slides (G.Abreast n) (expect kind wanted >>= f) post :=
  slides_from (fun _ _ h => h.succ)
    (slides_expect_bind hPlain fun t _ => slides_from (fun _ _ h => h.abreast) (h t))

theorem slides_ident_bind {f : Ident → Parser β} (h : ∀ id, G.Slides (G.Abreast n) (f id) post) :
    G.Slides (G.Abreast n) (ident wanted >>= f) post := by
  unfold ident
  rw [bind_assoc]
  refine slides_middle_bind rfl fun t => ?_
  rw [bind_assoc]
  refine slides_spanFrom_bind (fun _ _ h => h.last) fun v => ?_
  rw [pure_bind]
  exact h _

/-- An error at the token last taken. -/
theorem slides_previous_failAt {cause : ParseCause} :
    G.Slides pre (previous >>= fun t => (failAt t cause : Parser α)) post := by
  refine slides_fails fun s => ?_
  cases hRun : previous s with
  | error e => exact ⟨e, bind_error hRun⟩
  | ok q => exact ⟨_, bind_ok hRun⟩

end

/-! ## Repetition -/

section

open Tern.Parser

variable {α β : Type} {n : Nat} {I J : Nat → Input → Input → Prop} {more : Parser (Option β)}
  {step : α → β → Parser α} {item : Parser α} {stop : TokenKind → Bool}

/-- States in which the runs are abreast, whatever bound on what is ahead is known. -/
structure Measured (G : Gap) (I : Nat → Input → Input → Prop) : Prop where
  abreast : ∀ {n s u}, I n s u → G.Abreast n s u
  rebase : ∀ {n m s u}, I n s u → s.rest.length ≤ m → I m s u

theorem measured_abreast (G : Gap) : G.Measured G.Abreast := ⟨fun h => h, fun h => h.rebase⟩

theorem measured_clear (G : Gap) : G.Measured G.Clear := ⟨fun h => h.abreast, fun h => h.rebase⟩

/-- The runs decide alike whether there is a further round. -/
def Decides (I J : Nat → Input → Input → Prop) (more : Parser (Option β)) : Prop :=
  ∀ n s u, I (n + 1) s u → (more s = .ok (none, s) ∧ more u = .ok (none, u)) ∨
    ∃ b s' u', more s = .ok (some b, s') ∧ more u = .ok (some b, u') ∧ J n s' u'

theorem decides_acceptAs {wanted : TokenKind → Option β}
    (hPlain : ∀ kind b, wanted kind = some b → kind.terminates = false) :
    Decides G.Abreast G.Abreast (acceptAs wanted) := by
  have hNone : ∀ {s : Input} {t : Token} {rest : List Token}, s.rest = t :: rest →
      wanted t.kind = none → acceptAs wanted s = .ok (none, s) := by
    intro s t rest hRest hKind
    unfold acceptAs
    rw [bind_ok (peek_cons hRest), hKind]
    rfl
  have hSome : ∀ {s : Input} {t : Token} {b : β}, s.rest = t :: s.rest.tail →
      wanted t.kind = some b → t.kind ≠ .endOfInput →
      acceptAs wanted s = .ok (some b, { s with rest := s.rest.tail, last := some t }) := by
    intro s t b hRest hb hKind
    unfold acceptAs
    rw [bind_ok (peek_cons hRest), hb]
    change (advance >>= fun _ => pure (some b)) s = _
    rw [bind_ok (advance_cons hRest hKind)]
    rfl
  have hGap : ∀ {kind : TokenKind}, kind.terminates = true → wanted kind = none := by
    intro kind hKind
    refine Option.eq_none_iff_forall_ne_some.mpr fun b hb => ?_
    rw [hPlain kind b hb] at hKind
    cases hKind
  intro n s u hAbreast
  rcases hAbreast.cases with ⟨hLeft, hRight, -⟩ | ⟨t, hSees⟩
  · exact .inl ⟨hNone hLeft (hGap G.semi_terminates), hNone hRight (hGap G.close_terminates)⟩
  cases hb : wanted t.kind with
  | none => exact .inl ⟨hNone hSees.ahead.left hb, hNone hSees.ahead.right hb⟩
  | some b =>
    have hEnd := TokenKind.ne_end_of_terminates (hPlain _ b hb)
    exact .inr ⟨b, _, _, hSome hSees.ahead.left hb hEnd, hSome hSees.ahead.right hb hEnd,
      (hSees.ahead.take hEnd).abreast⟩

theorem decides_comma :
    Decides G.Abreast G.Abreast (do if ← accept .comma then pure (some ()) else pure none) := by
  intro n s u hAbreast
  rcases hAbreast.cases with ⟨hLeft, hRight, -⟩ | ⟨t, hSees⟩
  · rw [bind_ok (accept_other hLeft (ne_of_terminates G.semi_terminates rfl)),
      bind_ok (accept_other hRight (ne_of_terminates G.close_terminates rfl))]
    exact .inl ⟨rfl, rfl⟩
  by_cases hKind : t.kind = .comma
  · rw [bind_ok (accept_cons hSees.ahead.left hKind nofun),
      bind_ok (accept_cons hSees.ahead.right hKind nofun)]
    exact .inr ⟨(), _, _, rfl, rfl, (hSees.ahead.take (hKind ▸ nofun)).abreast⟩
  · rw [bind_ok (accept_other hSees.ahead.left hKind),
      bind_ok (accept_other hSees.ahead.right hKind)]
    exact .inl ⟨rfl, rfl⟩

theorem decides_check {kind : TokenKind} (hPlain : kind.terminates = false) :
    Decides G.Clear (fun n s u => ∃ t, t.kind = kind ∧ G.Sees (n + 1) t s u)
      (do if ← check kind then pure (some ()) else pure none) := by
  intro n s u hClear
  rcases hClear.abreast.cases with ⟨hLeft, hRight, -⟩ | ⟨t, hSees⟩
  · rw [bind_ok (check_cons hLeft), bind_ok (check_cons hRight),
      decide_eq_false (ne_of_terminates G.semi_terminates hPlain),
      decide_eq_false (ne_of_terminates G.close_terminates hPlain)]
    exact .inl ⟨rfl, rfl⟩
  · rw [bind_ok (check_cons hSees.ahead.left), bind_ok (check_cons hSees.ahead.right)]
    by_cases hKind : t.kind = kind
    · rw [decide_eq_true hKind]
      exact .inr ⟨(), s, u, rfl, rfl, t, hKind, hSees⟩
    · rw [decide_eq_false hKind]
      exact .inl ⟨rfl, rfl⟩

/-- The runs are the same over a repetition if they are over its rounds. The tokens ahead bound the
rounds, so neither run goes out of fuel. -/
theorem slides_chainUpTo (hI : G.Measured I) (hMore : Decides I J more)
    (hStep : ∀ n a b, G.Slides (J n) (step a b) (I n)) (fuel fuel' : Nat) (hFuel : n ≤ fuel)
    (hFuel' : n ≤ fuel') (a : α) {s u : Input} (hHere : I n s u) :
    G.Outcome (I n) (chainUpTo more step fuel a s) (chainUpTo more step fuel' a u) := by
  induction n generalizing fuel fuel' a s u with
  | zero =>
    have hAbreast := hI.abreast hHere
    exact absurd (Nat.lt_of_lt_of_le hAbreast.pos hAbreast.le) (Nat.lt_irrefl 0)
  | succ n ih =>
    obtain ⟨fuel, rfl⟩ := Nat.exists_eq_add_one_of_ne_zero (Nat.ne_zero_of_lt hFuel)
    obtain ⟨fuel', rfl⟩ := Nat.exists_eq_add_one_of_ne_zero (Nat.ne_zero_of_lt hFuel')
    unfold chainUpTo
    rcases hMore n s u hHere with ⟨hNo, hNo'⟩ | ⟨b, s', u', hYes, hYes', hJ⟩
    · rw [bind_ok hNo, bind_ok hNo']
      exact .done hHere
    · rw [bind_ok hYes, bind_ok hYes']
      have hRound := (hStep n a b s' u' hJ).bind fun a' s u h =>
        ih fuel fuel' (Nat.le_of_succ_le_succ hFuel) (Nat.le_of_succ_le_succ hFuel') a' h
      exact hRound.mono fun s u h => hI.rebase h (Nat.le_succ_of_le (hI.abreast h).le)

theorem slides_chain (hI : G.Measured I) (hMore : Decides I J more)
    (hStep : ∀ n a b, G.Slides (J n) (step a b) (I n)) (a : α) :
    G.Slides (I n) (chain more step a) (I n) := by
  intro s u hHere
  have hAbreast := hI.abreast hHere
  have hRun := slides_chainUpTo hI hMore hStep (s.size + 1) (u.size + 1)
    (Nat.le_succ_of_le hAbreast.left_size)
    (Nat.le_trans hAbreast.rows.length_le (Nat.succ_le_succ hAbreast.right_size)) a
    (hI.rebase hHere (Nat.le_refl _))
  exact hRun.mono fun s' u' h =>
    hI.rebase h (Nat.le_trans (hI.abreast h).le hAbreast.le)

/-- Items with commas between them. -/
theorem slides_commaSeparated {close : TokenKind} {item : List α → Parser α}
    (hPlain : close.terminates = false)
    (hItem : ∀ before n, G.Slides (G.Abreast n) (item before) (G.Abreast n)) :
    G.Slides (G.Abreast n) (commaSeparated close item) (G.Abreast n) := by
  refine slides_check_bind hPlain (fun _ _ h => h) ?_ fun t _ =>
    slides_pure fun _ _ h => h.abreast
  refine slides_bind (hItem [] n) fun first => ?_
  refine slides_bind (slides_chain (measured_abreast G) decides_comma ?_ _) fun items =>
    slides_pure fun _ _ h => h
  exact fun n items _ => slides_bind (hItem items n) fun _ => slides_pure fun _ _ h => h

/-- A round of a row of items that goes on up to a kind that stops it. -/
theorem chainUpTo_cons {more : Parser (Option Unit)} {s : Input} {t : Token} {rest : List Token}
    (hMore : ∀ (s : Input) t rest, s.rest = t :: rest →
      more s = .ok (if stop t.kind then none else some (), s))
    (hRest : s.rest = t :: rest) (fuel : Nat) (items : List α) :
    chainUpTo more (fun items _ => do pure ((← item) :: items)) (fuel + 1) items s =
      if stop t.kind then .ok (items, s)
      else (item >>= fun a => chainUpTo more (fun items _ => do pure ((← item) :: items)) fuel
        (a :: items)) s := by
  rw [chainUpTo, bind_ok (hMore s t rest hRest)]
  cases stop t.kind with
  | true => rfl
  | false =>
    simp only [bind_assoc, pure_bind]
    rfl

/-- Items that end alike in both runs do so in a row, up to a kind that stops it. At a gap that is
not held the first run has a semicolon for an item. -/
theorem slides_loop (stop : TokenKind → Bool) {more : Parser (Option Unit)}
    (hSemi : stop .semicolon = false)
    (hMore : ∀ (s : Input) t rest, s.rest = t :: rest →
      more s = .ok (if stop t.kind then none else some (), s))
    (hItem : ∀ n, G.Slides (G.Abreast (n + 1)) item (G.Ended n)) (hBalks : Balks item)
    (items : List α) :
    G.Slides (G.Ended n) (chain more (fun items _ => do pure ((← item) :: items)) items)
      (G.Stopped stop n) := by
  have hUpTo : ∀ n fuel fuel' items s u, n ≤ fuel → n ≤ fuel' → G.Ended n s u →
      G.Outcome (G.Stopped stop n)
        (chainUpTo more (fun items _ => do pure ((← item) :: items)) fuel items s)
        (chainUpTo more (fun items _ => do pure ((← item) :: items)) fuel' items u) := by
    intro n
    induction n with
    | zero =>
      intro fuel fuel' items s u _ _ hEnded
      exact absurd (Nat.lt_of_lt_of_le hEnded.pos hEnded.sizes.1) (Nat.lt_irrefl 0)
    | succ n ih =>
      intro fuel fuel' items s u hFuel hFuel' hEnded
      obtain ⟨fuel, rfl⟩ := Nat.exists_eq_add_one_of_ne_zero (Nat.ne_zero_of_lt hFuel)
      obtain ⟨fuel', rfl⟩ := Nat.exists_eq_add_one_of_ne_zero (Nat.ne_zero_of_lt hFuel')
      rcases hEnded with hBehind | hClear
      · have hAhead := hBehind.ahead
        rw [chainUpTo_cons hMore hAhead.left, chainUpTo_cons hMore hAhead.right]
        split
        · next hStop => exact .done ⟨_, hAhead, hStop⟩
        · obtain ⟨e, he⟩ := hBalks s _ _ hAhead.left G.close_terminates
          obtain ⟨e', he'⟩ := hBalks u _ _ hAhead.right G.close_terminates
          rw [bind_error he, bind_error he']
          exact .failed
      rcases hClear.cases with ⟨hFree, hLeft⟩ | ⟨t, hSees⟩
      · obtain ⟨e, he⟩ := hBalks s _ _ hLeft G.semi_terminates
        rw [chainUpTo_cons hMore hLeft, G.isSemi, hSemi, if_neg Bool.false_ne_true, bind_error he]
        exact .broken hFree
      · rw [chainUpTo_cons hMore hSees.ahead.left, chainUpTo_cons hMore hSees.ahead.right]
        split
        · next hStop => exact .done ⟨t, hSees.ahead, hStop⟩
        · have hRound := (hItem n s u hSees.abreast).bind fun a s u h =>
            ih fuel fuel' (a :: items) s u (Nat.le_of_succ_le_succ hFuel)
              (Nat.le_of_succ_le_succ hFuel') h
          exact hRound.mono fun s u ⟨t, hAhead, hStop⟩ =>
            ⟨t, { hAhead with le := Nat.le_succ_of_le hAhead.le }, hStop⟩
  intro s u hEnded
  obtain ⟨hLe, hLeft, hRight⟩ := hEnded.sizes
  have hRun := hUpTo s.rest.length (s.size + 1) (u.size + 1) items s u (Nat.le_succ_of_le hLeft)
    hRight (hEnded.rebase (Nat.le_refl _))
  exact hRun.mono fun s u ⟨t, hAhead, hStop⟩ =>
    ⟨t, { hAhead with le := Nat.le_trans hAhead.le hLe }, hStop⟩

/-- Items up to a closing brace, which must be there. -/
theorem slides_untilClose_bind {item : Parser α} {wanted : String} {f : List α → Token → Parser β}
    {post : Input → Input → Prop} (hItem : ∀ n, G.Slides (G.Abreast (n + 1)) item (G.Ended n))
    (hBalks : Balks item) (h : ∀ as t, G.Slides (G.Clear n) (f as t) post) :
    G.Slides (G.Clear n) (untilClose item >>= fun as => expect .rightBrace wanted >>= f as)
      post := by
  unfold untilClose
  simp only [bind_assoc, pure_bind]
  refine slides_bind (slides_from (fun _ _ => .inr)
    (slides_loop TokenKind.endsRow rfl ?_ hItem hBalks [])) fun as => ?_
  · intro s t rest hRest
    simp only [atClose, bind_assoc, pure_bind]
    rw [bind_ok (peek_cons hRest)]
    cases t.kind <;> rfl
  · rintro s u ⟨t, hAhead, -⟩
    unfold expect
    simp only [bind_assoc]
    rw [bind_ok (peek_cons hAhead.left), bind_ok (peek_cons hAhead.right)]
    by_cases hKind : t.kind = .rightBrace
    · rw [if_pos hKind]
      have hTook : G.Slides (G.Took n t) (f as.reverse t) post :=
        slides_from (fun _ _ h => h.clear (hKind ▸ rfl)) (h _ t)
      exact slides_take_bind (hKind ▸ nofun) hTook s u
        { hAhead with le := Nat.le_succ_of_le hAhead.le }
    · rw [if_neg hKind]
      exact .failed

end

end Gap

end Tern
