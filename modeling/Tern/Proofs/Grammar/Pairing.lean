import Mathlib.Data.List.TakeWhile
import Tern.Proofs.Grammar.Descent
import Tern.Proofs.Grammar.Reading

/-!
# A descent beside a parser

A descent and a parser run on the same tokens, which need not end in the same way: what is behind
the first end of input may differ, that end may stand at different positions, and on one side it may
be missing. The two runs take the same tokens and come to the same result, or they fail in the same
way, at the same token or both at the end.

* `Token.row`, `Token.finish`: the tokens up to the first end of input, and that end;
* `Pairing.Alike`: states with the same tokens ahead;
* `Pairing.Runs`: what the two sides do on a row of tokens;
* `Pairing.Pairs`: the two sides agree on every row, and take a token where they succeed;
* `Pairing.runs_chain`: rounds that take tokens come to an end.
-/

namespace Tern

/-! ## Rows and their ends -/

/-- The tokens before the first end of input. -/
def Token.row (tokens : List Token) : List Token :=
  tokens.takeWhile fun t => t.kind ≠ .endOfInput

/-- The first end of input among tokens. Where they have none, it stands behind the last of them, or
behind the token before them. -/
def Token.finish (last : Option Token) (tokens : List Token) : Token :=
  (tokens.find? fun t => t.kind = .endOfInput).getD
    (.eof (match tokens.getLast?.or last with
      | some t => t.stop
      | none => .first))

namespace Token

variable {t : Token} {ts : List Token} {last : Option Token}

theorem row_cons (h : t.kind ≠ .endOfInput) : row (t :: ts) = t :: row ts :=
  List.takeWhile_cons_of_pos (decide_eq_true h)

theorem row_end (h : t.kind = .endOfInput) : row (t :: ts) = [] :=
  List.takeWhile_cons_of_neg (by simp [h])

theorem exists_of_row {xs : List Token} (h : row ts = t :: xs) :
    ∃ rest, ts = t :: rest ∧ t.kind ≠ .endOfInput ∧ row rest = xs := by
  cases ts with
  | nil => cases h
  | cons t' rest =>
    by_cases hKind : t'.kind = .endOfInput
    · rw [row_end hKind] at h
      cases h
    · rw [row_cons hKind] at h
      obtain ⟨rfl, hRow⟩ := List.cons.inj h
      exact ⟨rest, rfl, hKind, hRow⟩

theorem finish_cons (h : t.kind ≠ .endOfInput) : finish last (t :: ts) = finish (some t) ts := by
  rw [finish, finish, List.find?_cons_of_neg (by simp [h]), List.getLast?_cons]
  cases ts.getLast? <;> rfl

theorem finish_end (h : t.kind = .endOfInput) : finish last (t :: ts) = t := by
  rw [finish, List.find?_cons_of_pos (by simp [h])]
  rfl

theorem kind_finish : (finish last ts).kind = .endOfInput := by
  induction ts generalizing last with
  | nil => rfl
  | cons t ts ih =>
    by_cases h : t.kind = .endOfInput
    · rw [finish_end h, h]
    · rw [finish_cons h, ih]

end Token

namespace Parser

/-- The token ahead is the first one of the row, or else its end. -/
theorem peek_eq {s : Input} (h : s.failure = none) :
    peek s = .ok ((Token.row s.rest).headD (Token.finish s.last s.rest), s) := by
  unfold peek
  cases hRest : s.rest with
  | nil =>
    rw [h]
    rfl
  | cons t ts =>
    by_cases hKind : t.kind = .endOfInput
    · rw [Token.row_end hKind, Token.finish_end hKind]
      rfl
    · rw [Token.row_cons hKind]
      rfl

theorem previous_some {s : Input} {t : Token} (h : s.last = some t) :
    previous s = .ok (t, s) := by
  have hGet : (get : Parser Input) s = .ok (s, s) := rfl
  unfold previous
  rw [bind_ok hGet, h]
  rfl

theorem previous_none {s : Input} (h : s.last = none) : previous s = peek s := by
  have hGet : (get : Parser Input) s = .ok (s, s) := rfl
  unfold previous
  rw [bind_ok hGet, h]

end Parser

/-- Ends of input for two sides, and the rounds that a loop may have. -/
structure Pairing where
  finish : Token
  finish' : Token
  ending : finish.kind = .endOfInput
  ending' : finish'.kind = .endOfInput
  rounds : Nat

namespace Pairing

open Tern.Parser

variable {D : Pairing} {α β : Type} {xs ys zs : List Token} {s u : Input} {t t' : Token}
  {R : List Token → α → Prop} {S : List Token → β → Prop} {p : Descent α} {q : Parser α}
  {f : α → Descent β} {g : α → Parser β}

/-! ## States -/

/-- A row is ahead on both sides, and the same token was taken last. The loops of the first side may
have more rounds than there are tokens in the row, and so may those of the second. -/
structure Alike (D : Pairing) (xs : List Token) (s u : Input) : Prop where
  row : Token.row s.rest = xs
  row' : Token.row u.rest = xs
  finish : Token.finish s.last s.rest = D.finish
  finish' : Token.finish u.last u.rest = D.finish'
  failure : s.failure = none
  failure' : u.failure = none
  last : s.last = u.last
  rounds : xs.length < D.rounds
  size : xs.length ≤ u.size

/-- The pairing of two states. -/
def ofInputs (rounds : Nat) (s u : Input) : Pairing :=
  ⟨Token.finish s.last s.rest, Token.finish u.last u.rest, Token.kind_finish, Token.kind_finish,
    rounds⟩

theorem alike_ofInputs {rounds : Nat} (hRow : Token.row u.rest = Token.row s.rest)
    (hLast : s.last = u.last) (hFailure : s.failure = none) (hFailure' : u.failure = none)
    (hRounds : s.rest.length < rounds) (hSize : u.rest.length ≤ u.size) :
    (ofInputs rounds s u).Alike (Token.row s.rest) s u where
  row := rfl
  row' := hRow
  finish := rfl
  finish' := rfl
  failure := hFailure
  failure' := hFailure'
  last := hLast
  rounds := Nat.lt_of_le_of_lt (List.takeWhile_prefix _).length_le hRounds
  size := hRow ▸ (List.takeWhile_prefix _).length_le.trans hSize

/-- The tokens that the two sides see with a row ahead. -/
inductive Sees (D : Pairing) : List Token → Token → Token → Prop where
  | token {t : Token} (xs : List Token) (hKind : t.kind ≠ .endOfInput) : D.Sees (t :: xs) t t
  | finish : D.Sees [] D.finish D.finish'

/-- The tokens are named alike, and stand at one position or are the ends. -/
structure Shown (D : Pairing) (t t' : Token) : Prop where
  describe : t'.describe = t.describe
  pos : t'.pos = t.pos ∨ t.pos = D.finish.pos ∧ t'.pos = D.finish'.pos

theorem shown_refl (t : Token) : D.Shown t t := ⟨rfl, .inl rfl⟩

theorem Sees.kind (h : D.Sees xs t t') : t'.kind = t.kind := by
  cases h with
  | token => rfl
  | finish => rw [D.ending, D.ending']

theorem Sees.shown (h : D.Sees xs t t') : D.Shown t t' := by
  cases h with
  | token => exact shown_refl t
  | finish =>
    refine ⟨?_, .inr ⟨rfl, rfl⟩⟩
    rw [Token.describe, Token.describe, D.ending, D.ending']

theorem Sees.exists_cons (h : D.Sees xs t t') (hKind : t.kind ≠ .endOfInput) :
    t' = t ∧ ∃ ys, xs = t :: ys := by
  cases h with
  | token xs => exact ⟨rfl, xs, rfl⟩
  | finish => exact absurd D.ending hKind

theorem Sees.ne_nil (h : D.Sees xs t t') (hKind : t.kind ≠ .endOfInput) : xs ≠ [] := by
  obtain ⟨-, ys, rfl⟩ := h.exists_cons hKind
  exact List.cons_ne_nil t ys

theorem Sees.eq_nil (h : D.Sees xs t t') (hKind : t.kind = .endOfInput) :
    xs = [] ∧ t = D.finish ∧ t' = D.finish' := by
  cases h with
  | token xs hNot => exact absurd hKind hNot
  | finish => exact ⟨rfl, rfl, rfl⟩

theorem Alike.peek (h : D.Alike xs s u) :
    ∃ t t', D.Sees xs t t' ∧ peek s = .ok (t, s) ∧ peek u = .ok (t', u) := by
  have hLeft := peek_eq h.failure
  have hRight := peek_eq h.failure'
  rw [h.row, h.finish] at hLeft
  rw [h.row', h.finish'] at hRight
  refine ⟨_, _, ?_, hLeft, hRight⟩
  cases hRow : xs with
  | nil => exact .finish
  | cons t ys =>
    refine .token ys fun hKind => ?_
    have hMem : t ∈ Token.row s.rest := by
      rw [h.row, hRow]
      exact List.mem_cons_self
    have hNot := List.mem_takeWhile_imp hMem
    rw [hKind] at hNot
    cases hNot

theorem Sees.unique {u u' : Token} (h : D.Sees xs t t') (h' : D.Sees xs u u') :
    u = t ∧ u' = t' := by
  cases h <;> cases h' <;> exact ⟨rfl, rfl⟩

/-- Where there is something to take, both sides see the same token. -/
theorem Sees.eq_of_lt (h : D.Sees xs t t') (hLess : ys.length < xs.length) : t' = t := by
  cases h with
  | token => rfl
  | finish => exact absurd hLess (Nat.not_lt_zero _)

/-- The states after the token ahead has been taken on both sides. -/
theorem Alike.advance (h : D.Alike (t :: xs) s u) :
    ∃ s' u', D.Alike xs s' u' ∧ s'.last = some t ∧
      advance s = .ok (t, s') ∧ advance u = .ok (t, u') := by
  obtain ⟨rest, hRest, hKind, hRow⟩ := Token.exists_of_row h.row
  obtain ⟨rest', hRest', -, hRow'⟩ := Token.exists_of_row h.row'
  have hLeft := advance_cons (s := s) (t := t) (by rw [hRest]; rfl) hKind
  have hRight := advance_cons (s := u) (t := t) (by rw [hRest']; rfl) hKind
  have hFinish := h.finish
  have hFinish' := h.finish'
  have hRounds := h.rounds
  have hSize := h.size
  rw [hRest, Token.finish_cons hKind] at hFinish
  rw [hRest', Token.finish_cons hKind] at hFinish'
  rw [List.length_cons] at hRounds hSize
  rw [hRest, List.tail_cons] at hLeft
  rw [hRest', List.tail_cons] at hRight
  refine ⟨{ s with rest := rest, last := some t }, { u with rest := rest', last := some t }, ?_,
    rfl, hLeft, hRight⟩
  exact ⟨hRow, hRow', hFinish, hFinish', h.failure, h.failure', rfl, Nat.lt_of_succ_lt hRounds,
    Nat.le_of_succ_le hSize⟩

/-! ## Results -/

/-- Both sides succeed with the same result and a row of which `R` holds, or fail alike. -/
inductive Agree (D : Pairing) (xs : List Token) (R : List Token → α → Prop) :
    Except Stop (α × Input) → Except SyntaxError (α × Input) → Prop where
  | done {ys : List Token} {a : α} {s u : Input} (hSuffix : ys <:+ xs) (hAlike : D.Alike ys s u)
      (hR : R ys a) : D.Agree xs R (.ok (a, s)) (.ok (a, u))
  | failed {cause : ParseCause} {found : String} {pos pos' : Position}
      (hPos : pos' = pos ∨ pos = D.finish.pos ∧ pos' = D.finish'.pos) :
      D.Agree xs R (.error (.refused (.parse ⟨cause, found, pos⟩)))
        (.error (.parse ⟨cause, found, pos'⟩))

/-- With a row ahead the two sides agree. -/
def Runs (D : Pairing) (xs : List Token) (p : Descent α) (q : Parser α)
    (R : List Token → α → Prop) : Prop :=
  ∀ s u, D.Alike xs s u → D.Agree xs R (p s) (q u)

/-- The two sides agree on every row, or on every row that is not empty, and succeed only if they
take something. -/
def Pairs (D : Pairing) (led : Bool) (p : Descent α) (q : Parser α) : Prop :=
  ∀ xs, (led = true → xs ≠ []) → D.Runs xs p q fun ys _ => ys.length < xs.length

theorem Agree.mono {x : Except Stop (α × Input)} {y : Except SyntaxError (α × Input)}
    {R' : List Token → α → Prop} (h : D.Agree ys R x y) (hSuffix : ys <:+ xs)
    (hImp : ∀ zs a, zs <:+ ys → R zs a → R' zs a) : D.Agree xs R' x y := by
  cases h with
  | done hRest hAlike hR => exact .done (hRest.trans hSuffix) hAlike (hImp _ _ hRest hR)
  | failed hPos => exact .failed hPos

theorem runs_mono {R' : List Token → α → Prop} (h : D.Runs xs p q R)
    (hImp : ∀ ys a, ys <:+ xs → R ys a → R' ys a) : D.Runs xs p q R' := fun s u hAlike =>
  (h s u hAlike).mono List.suffix_rfl hImp

theorem runs_pure {a : α} (h : R xs a) : D.Runs xs (pure a) (pure a) R := fun _ _ hAlike =>
  .done List.suffix_rfl hAlike h

theorem runs_bind (h : D.Runs xs p q R)
    (hNext : ∀ ys a, ys <:+ xs → R ys a → D.Runs ys (f a) (g a) S) :
    D.Runs xs (p >>= f) (q >>= g) S := by
  intro s u hAlike
  change D.Agree xs S (p s >>= fun r => f r.1 r.2) (q u >>= fun r => g r.1 r.2)
  have hFirst := h s u hAlike
  generalize p s = x at hFirst ⊢
  generalize q u = y at hFirst ⊢
  cases hFirst with
  | done hSuffix hThere hR => exact (hNext _ _ hSuffix hR _ _ hThere).mono hSuffix fun _ _ _ => id
  | failed hPos => exact .failed hPos

theorem runs_map {f : α → β} (h : D.Runs xs p q fun ys a => S ys (f a)) :
    D.Runs xs (f <$> p) (f <$> q) S := by
  rw [map_eq_pure_bind, map_eq_pure_bind]
  exact runs_bind h fun ys a _ hS => runs_pure hS

theorem runs_some (h : D.Runs xs p q R) :
    D.Runs xs (some <$> p) (some <$> q) fun _ _ => True :=
  runs_map (runs_mono h fun _ _ _ _ => trivial)

theorem runs_ite {c : Prop} [Decidable c] {p' : Descent α} {q' : Parser α}
    (hYes : c → D.Runs xs p q R) (hNo : ¬c → D.Runs xs p' q' R) :
    D.Runs xs (if c then p else p') (if c then q else q') R := by
  split
  · exact hYes ‹_›
  · exact hNo ‹_›

theorem runs_failAt {cause : ParseCause} (h : D.Shown t t') :
    D.Runs xs (Descent.lift (failAt t cause)) (failAt t' cause) R := by
  intro s u _
  change D.Agree xs R (.error (.refused (.parse ⟨cause, t.describe, t.pos⟩)))
    (.error (.parse ⟨cause, t'.describe, t'.pos⟩))
  rw [h.describe]
  exact .failed h.pos

/-! ## Parsers that call no rule -/

theorem lift_bind (p : Parser α) (k : α → Parser β) :
    Descent.lift (p >>= k) = Descent.lift p >>= fun a => Descent.lift (k a) := by
  funext s
  change (p s >>= fun r => k r.1 r.2).mapError Stop.refused =
    (p s).mapError Stop.refused >>= fun r => (k r.1 r.2).mapError Stop.refused
  cases p s <;> rfl

theorem descent_bind_ok {s' : Input} {a : α} (h : p s = .ok (a, s')) : (p >>= f) s = f a s' := by
  change (p s >>= fun r => f r.1 r.2) = _
  rw [h]
  rfl

theorem descent_bind_error {e : Stop} (h : p s = .error e) : (p >>= f) s = .error e := by
  change (p s >>= fun r => f r.1 r.2) = _
  rw [h]
  rfl

theorem lift_bind_ok {p : Parser α} {k : α → Descent β} {s' : Input} {a : α}
    (h : p s = .ok (a, s')) : (Descent.lift p >>= k) s = k a s' := by
  refine descent_bind_ok ?_
  rw [Descent.lift, h]
  rfl

theorem lift_ite {c : Prop} [Decidable c] (p p' : Parser α) :
    Descent.lift (if c then p else p') = if c then Descent.lift p else Descent.lift p' := by
  split <;> rfl

section

variable {k : Token → Descent β} {k' : Token → Parser β} {kind : TokenKind} {wanted : String}

theorem runs_peek_bind (h : ∀ t t', D.Sees xs t t' → D.Runs xs (k t) (k' t') S) :
    D.Runs xs (Descent.lift peek >>= k) (peek >>= k') S := by
  intro s u hAlike
  obtain ⟨t, t', hSees, hLeft, hRight⟩ := hAlike.peek
  rw [lift_bind_ok hLeft, bind_ok hRight]
  exact h t t' hSees s u hAlike

/-- The runs may be looked at where it is known which token they see. -/
theorem runs_look (h : ∀ t t', D.Sees xs t t' → D.Runs xs p q R) : D.Runs xs p q R := by
  intro s u hAlike
  obtain ⟨t, t', hSees, -, -⟩ := hAlike.peek
  exact h t t' hSees s u hAlike

theorem runs_peek_left {q : Parser β} (hSees : D.Sees xs t t') (h : D.Runs xs (k t) q S) :
    D.Runs xs (Descent.lift peek >>= k) q S := by
  intro s u hAlike
  obtain ⟨v, v', hHere, hLeft, -⟩ := hAlike.peek
  obtain ⟨rfl, -⟩ := hSees.unique hHere
  rw [lift_bind_ok hLeft]
  exact h s u hAlike

theorem runs_check_left {k : Bool → Descent β} {q : Parser β} (hSees : D.Sees xs t t')
    (h : D.Runs xs (k (t.kind = kind)) q S) :
    D.Runs xs (Descent.lift (check kind) >>= k) q S := by
  unfold check
  rw [lift_bind, bind_assoc]
  exact runs_peek_left hSees h

/-- One side checks for one kind after the other. -/
theorem runs_case_left {p p' : Descent β} {q : Parser β} (hSees : D.Sees xs t t')
    (hYes : t.kind = kind → D.Runs xs p q S) (hNo : t.kind ≠ kind → D.Runs xs p' q S) :
    D.Runs xs (Descent.lift (check kind) >>= fun b => if b then p else p') q S := by
  refine runs_check_left hSees ?_
  by_cases hKind : t.kind = kind
  · rw [decide_eq_true hKind, if_pos rfl]
    exact hYes hKind
  · rw [decide_eq_false hKind, if_neg Bool.false_ne_true]
    exact hNo hKind

theorem runs_atClose_left {k : Bool → Descent β} {q : Parser β} (hSees : D.Sees xs t t')
    (h : D.Runs xs (k (t.kind = .rightBrace || t.kind = .endOfInput)) q S) :
    D.Runs xs (Descent.lift atClose >>= k) q S := by
  unfold atClose
  rw [lift_bind, bind_assoc]
  exact runs_peek_left hSees h

theorem runs_peek_right {p : Descent β} (hSees : D.Sees xs t t') (h : D.Runs xs p (k' t') S) :
    D.Runs xs p (peek >>= k') S := by
  intro s u hAlike
  obtain ⟨v, v', hHere, -, hRight⟩ := hAlike.peek
  obtain ⟨-, rfl⟩ := hSees.unique hHere
  rw [bind_ok hRight]
  exact h s u hAlike

/-- A parser may be replaced by one that does the same with the token ahead. -/
theorem runs_congr_right {q' : Parser α} (hSees : D.Sees xs t t')
    (hSame : ∀ u, peek u = .ok (t', u) → q' u = q u) (h : D.Runs xs p q R) :
    D.Runs xs p q' R := by
  intro s u hAlike
  obtain ⟨v, v', hHere, -, hRight⟩ := hAlike.peek
  obtain ⟨-, rfl⟩ := hSees.unique hHere
  rw [hSame u hRight]
  exact h s u hAlike

theorem runs_advance_bind (h : D.Runs xs (k t) (k' t) S) :
    D.Runs (t :: xs) (Descent.lift advance >>= k) (advance >>= k') S := by
  intro s u hAlike
  obtain ⟨s', u', hThere, -, hLeft, hRight⟩ := hAlike.advance
  rw [lift_bind_ok hLeft, bind_ok hRight]
  exact (h s' u' hThere).mono (List.suffix_cons t xs) fun _ _ _ => id

theorem runs_check_bind {k : Bool → Descent β} {k' : Bool → Parser β}
    (h : ∀ t t', D.Sees xs t t' → D.Runs xs (k (t.kind = kind)) (k' (t.kind = kind)) S) :
    D.Runs xs (Descent.lift (check kind) >>= k) (check kind >>= k') S := by
  unfold check
  rw [lift_bind, bind_assoc, bind_assoc]
  refine runs_peek_bind fun t t' hSees => ?_
  rw [hSees.kind]
  exact h t t' hSees

theorem runs_accept_bind {k : Bool → Descent β} {k' : Bool → Parser β}
    (hEnd : kind ≠ .endOfInput)
    (hYes : ∀ t ys, xs = t :: ys → t.kind = kind → D.Runs ys (k true) (k' true) S)
    (hNo : D.Runs xs (k false) (k' false) S) :
    D.Runs xs (Descent.lift (accept kind) >>= k) (accept kind >>= k') S := by
  unfold accept
  rw [lift_bind, bind_assoc, bind_assoc]
  refine runs_check_bind fun t t' hSees => ?_
  by_cases hKind : t.kind = kind
  · obtain ⟨-, ys, rfl⟩ := hSees.exists_cons (hKind ▸ hEnd)
    rw [decide_eq_true hKind, if_pos rfl, lift_bind, bind_assoc, bind_assoc]
    exact runs_advance_bind (hYes t ys rfl hKind)
  · rw [decide_eq_false hKind]
    exact hNo

theorem runs_expect_bind (hEnd : kind ≠ .endOfInput)
    (h : ∀ t ys, xs = t :: ys → t.kind = kind → D.Runs ys (k t) (k' t) S) :
    D.Runs xs (Descent.lift (expect kind wanted) >>= k) (expect kind wanted >>= k') S := by
  unfold expect
  rw [lift_bind, bind_assoc, bind_assoc]
  refine runs_peek_bind fun t t' hSees => ?_
  rw [hSees.kind, lift_ite]
  by_cases hKind : t.kind = kind
  · obtain ⟨rfl, ys, rfl⟩ := hSees.exists_cons (hKind ▸ hEnd)
    rw [if_pos hKind, if_pos hKind]
    exact runs_advance_bind (h t' ys rfl hKind)
  · rw [if_neg hKind, if_neg hKind]
    exact runs_bind (R := fun _ _ => False) (runs_failAt hSees.shown) nofun

theorem runs_spanFrom_bind {start : Token} {k : Option Span → Descent β}
    {k' : Option Span → Parser β}
    (h : ∀ v, D.Runs xs (k v) (k' v) S) :
    D.Runs xs (Descent.lift (spanFrom start) >>= k) (spanFrom start >>= k') S := by
  intro s u hAlike
  have hSpan := h (some ⟨start.pos, (s.last.getD start).stop⟩) s u hAlike
  change D.Agree xs S (k (some ⟨start.pos, (s.last.getD start).stop⟩) s)
    (k' (some ⟨start.pos, (u.last.getD start).stop⟩) u)
  rw [← hAlike.last]
  exact hSpan

/-- A result that ends with the token last taken. -/
theorem runs_spanned {start : Token} (f : Option Span → β) :
    D.Runs xs (Descent.lift (spanFrom start) >>= fun v => pure (f v))
      (spanFrom start >>= fun v => pure (f v)) fun _ _ => True :=
  runs_spanFrom_bind fun _ => runs_pure trivial

theorem runs_ident_bind {k : Ident → Descent β} {k' : Ident → Parser β}
    (h : ∀ t ys id, xs = t :: ys → D.Runs ys (k id) (k' id) S) :
    D.Runs xs (Descent.lift (ident wanted) >>= k) (ident wanted >>= k') S := by
  unfold ident
  rw [lift_bind, bind_assoc, bind_assoc]
  refine runs_expect_bind (by decide) fun t ys hRow _ => ?_
  rw [lift_bind, bind_assoc, bind_assoc]
  exact runs_spanFrom_bind fun v => h t ys _ hRow

theorem runs_previous_bind (h : ∀ t t', D.Shown t t' → D.Runs xs (k t) (k' t') S) :
    D.Runs xs (Descent.lift previous >>= k) (previous >>= k') S := by
  intro s u hAlike
  obtain ⟨t, t', hShown, hLeft, hRight⟩ : ∃ t t', D.Shown t t' ∧ previous s = .ok (t, s) ∧
      previous u = .ok (t', u) := by
    have hLast := hAlike.last
    cases hTaken : s.last with
    | some t => exact ⟨t, t, shown_refl t, previous_some hTaken, previous_some (hLast ▸ hTaken)⟩
    | none =>
      obtain ⟨t, t', hSees, hLeft, hRight⟩ := hAlike.peek
      exact ⟨t, t', hSees.shown, (previous_none hTaken).trans hLeft,
        (previous_none (hLast ▸ hTaken)).trans hRight⟩
  rw [lift_bind_ok hLeft, bind_ok hRight]
  exact h t t' hShown s u hAlike

theorem runs_atClose_bind {k : Bool → Descent β} {k' : Bool → Parser β}
    (h : ∀ t t' b, D.Sees xs t t' → (b = true ↔ t.kind = .rightBrace ∨ t.kind = .endOfInput) →
      D.Runs xs (k b) (k' b) S) :
    D.Runs xs (Descent.lift atClose >>= k) (atClose >>= k') S := by
  unfold atClose
  rw [lift_bind, bind_assoc, bind_assoc]
  refine runs_peek_bind fun t t' hSees => ?_
  rw [hSees.kind]
  refine h t t' _ hSees ?_
  rw [Bool.or_eq_true, decide_eq_true_iff, decide_eq_true_iff]

end

/-! ## Repetition -/

section

variable {more : Descent (Option β)} {more' : Parser (Option β)} {step : α → β → Descent α}
  {step' : α → β → Parser α} {Q : List Token → Prop}

/-- Rounds that take tokens come to an end on both sides, since the row has an end. -/
theorem runs_chainUpTo (hRound : ∀ xs, D.Runs xs more more' fun ys b => (b = none → Q ys) ∧
      ∀ c, b = some c → ∀ a, D.Runs ys (step a c) (step' a c) fun zs _ => zs.length < xs.length)
    (rounds fuel : Nat) (hRounds : xs.length < rounds) (hFuel : xs.length < fuel) (a : α) :
    D.Runs xs (Descent.loop more step rounds a) (chainUpTo more' step' fuel a)
      fun ys _ => Q ys := by
  induction rounds generalizing xs fuel a with
  | zero => exact absurd hRounds (Nat.not_lt_zero _)
  | succ rounds ih =>
    obtain ⟨fuel, rfl⟩ := Nat.exists_eq_add_one_of_ne_zero (Nat.ne_zero_of_lt hFuel)
    unfold Descent.loop chainUpTo
    refine runs_bind (hRound xs) fun ys b _ hb => ?_
    cases b with
    | none => exact runs_pure (hb.1 rfl)
    | some c =>
      refine runs_bind (hb.2 c rfl a) fun zs a' _ hLess => ?_
      exact ih fuel (by omega) (by omega) a'

theorem runs_chain (hRound : ∀ xs, D.Runs xs more more' fun ys b => (b = none → Q ys) ∧
      ∀ c, b = some c → ∀ a, D.Runs ys (step a c) (step' a c) fun zs _ => zs.length < xs.length)
    (a : α) :
    D.Runs xs (Descent.loop more step D.rounds a) (chain more' step' a) fun ys _ => Q ys :=
  fun s u hAlike => runs_chainUpTo hRound D.rounds (u.size + 1) hAlike.rounds
    (Nat.lt_succ_of_le hAlike.size) a s u hAlike

end

section

variable {item : Descent α} {item' : Parser α}

theorem runs_untilClose (h : ∀ xs, D.Runs xs item item' fun ys _ => ys.length < xs.length) :
    D.Runs xs (Descent.untilClose D.rounds item) (untilClose item') fun _ _ => True := by
  unfold Descent.untilClose untilClose
  refine runs_bind (runs_chain (Q := fun _ => True) (fun xs => ?_) []) fun ys items _ _ =>
    runs_pure trivial
  refine runs_atClose_bind fun t t' b _ _ => ?_
  cases b with
  | true => exact runs_pure ⟨fun _ => trivial, nofun⟩
  | false =>
    refine runs_pure ⟨fun _ => trivial, fun c _ items => ?_⟩
    exact runs_bind (h xs) fun ys a _ hLess => runs_pure hLess

theorem runs_commaSeparated {close : TokenKind} {item : List α → Descent α}
    {item' : List α → Parser α}
    (h : ∀ before xs, D.Runs xs (item before) (item' before) fun ys _ => ys.length < xs.length) :
    D.Runs xs (Descent.commaSeparated D.rounds close item) (commaSeparated close item')
      fun _ _ => True := by
  unfold Descent.commaSeparated commaSeparated
  refine runs_check_bind fun t t' _ => runs_ite (fun _ => runs_pure trivial) fun _ => ?_
  refine runs_bind (h [] xs) fun ys first _ _ => ?_
  refine runs_bind (runs_chain (Q := fun _ => True) (fun xs => ?_) [first]) fun zs items _ _ =>
    runs_pure trivial
  refine runs_accept_bind (by decide) (fun t zs hRow _ => ?_) (runs_pure ⟨fun _ => trivial, nofun⟩)
  refine runs_pure ⟨nofun, fun c _ items => ?_⟩
  refine runs_bind (h items zs) fun ws a _ hLess => runs_pure ?_
  rw [hRow, List.length_cons]
  omega

end

/-! ## Progress -/

theorem Pairs.runs (h : D.Pairs false p q) :
    D.Runs xs p q fun ys _ => ys.length < xs.length := h xs nofun

/-- What follows after a token has been taken leaves fewer tokens than there were. -/
theorem runs_after (hLess : ys.length < xs.length) (h : D.Runs ys p q fun _ _ => True) :
    D.Runs ys p q fun zs _ => zs.length < xs.length :=
  runs_mono h fun _ _ hSuffix _ => Nat.lt_of_le_of_lt hSuffix.length_le hLess

theorem runs_keyword_bind {k : Token → Descent β} {k' : Token → Parser β}
    (h : ∀ t ys, D.Runs ys (k t) (k' t) fun _ _ => True) :
    D.Pairs true (Descent.lift advance >>= k) (advance >>= k') := by
  intro xs hSome
  obtain ⟨t, ys, rfl⟩ := List.exists_cons_of_ne_nil (hSome rfl)
  exact runs_advance_bind (runs_after (Nat.lt_succ_self _) (h t ys))

theorem runs_opening_bind {k : Token → Descent β} {k' : Token → Parser β} {kind : TokenKind}
    {wanted : String} (hEnd : kind ≠ .endOfInput)
    (h : ∀ t ys, D.Runs ys (k t) (k' t) fun _ _ => True) :
    D.Pairs false (Descent.lift (expect kind wanted) >>= k) (expect kind wanted >>= k') := by
  intro xs _
  refine runs_expect_bind hEnd fun t ys hRow _ => runs_after ?_ (h t ys)
  rw [hRow]
  exact Nat.lt_succ_self _

end Pairing

end Tern
