import Mathlib.Data.List.Forall2
import Tern.Proofs.Grammar.Reading
import Tern.Proofs.Syntax.Respan
import Tern.Proofs.Token.Layout

/-!
# Two runs of a parser

A parser is run twice, on two rows of tokens that are alike, token for token, except for where the
tokens stand. The runs stay side by side: they take tokens that are alike, and end in trees that are
the same up to a change of spans, or in errors that say the same.

The rows need not end in the same way. A comparison that is open has the end of input in the first
row where the second row goes on. The last token before that place closes a statement, so the runs
part only behind a statement, and until then neither looks at what comes there.

* `Comparison`: which tokens are alike, how spans are changed, and where the rows end;
* `Comparison.Facing`, `Comparison.Past`: the runs before and behind the last common token;
* `Comparison.Tracks`: two parsers that stay side by side;
* `Comparison.tracks_chain`: repetitions do if their rounds do.
-/

namespace Tern

/-! ## What has spans -/

/-- Trees and parts of trees, whose spans can be changed. -/
class Spanned (α : Type) where
  respan : (Option Span → Option Span) → α → α

instance : Spanned (Option Span) := ⟨fun f s => f s⟩
instance : Spanned Ident := ⟨Ident.respan⟩
instance : Spanned Expr := ⟨Expr.respan⟩
instance : Spanned Simple := ⟨Simple.respan⟩
instance : Spanned Stmt := ⟨Stmt.respan⟩
instance : Spanned Block := ⟨Block.respan⟩
instance : Spanned FuncDef := ⟨FuncDef.respan⟩
instance : Spanned ClassDef := ⟨ClassDef.respan⟩
instance : Spanned ElifClause := ⟨ElifClause.respan⟩
instance {α : Type} [Spanned α] : Spanned (Option α) := ⟨fun f => Option.map (Spanned.respan f)⟩
instance {α : Type} [Spanned α] : Spanned (List α) := ⟨fun f => List.map (Spanned.respan f)⟩

/-- A token of this kind can be the last of a statement. -/
def TokenKind.closes : TokenKind → Bool
  | .semicolon | .rightBrace => true
  | _ => false

/-! ## Comparisons -/

/-- Which tokens of two rows are alike, and how the spans of the two trees are changed. The first
row ends with `finish`, and the second one has `follow` and `later` there. -/
structure Comparison where
  like : Token → Token → Prop
  left : Option Span → Option Span
  right : Option Span → Option Span
  finish : Token
  follow : Token
  later : List Token
  isOpen : Prop
  face : ∀ {t t'}, like t t' → t'.face = t.face
  spans : ∀ {t t' v v'}, like t t' → like v v' →
    left (some ⟨t.pos, v.stop⟩) = right (some ⟨t'.pos, v'.stop⟩)
  ending : finish.kind = .endOfInput
  apart : isOpen → follow.kind ≠ .kwElif ∧ follow.kind ≠ .kwElse

namespace Comparison

variable (D : Comparison)

/-- The same up to the change of spans. -/
def Same {α : Type} [Spanned α] (a b : α) : Prop :=
  Spanned.respan D.left a = Spanned.respan D.right b

/-- Rows of tokens that are alike up to where they end. In an open comparison the last token before
that place closes a statement. -/
inductive Rows : List Token → List Token → Prop where
  | shut (hShut : ¬D.isOpen) (hLike : D.like D.finish D.follow) :
      Rows [D.finish] (D.follow :: D.later)
  | last {t t' : Token} (hOpen : D.isOpen) (hCloses : t.kind.closes = true) (hLike : D.like t t') :
      Rows [t, D.finish] (t' :: D.follow :: D.later)
  | cons {t t' : Token} {rest rest' : List Token} (hKind : t.kind ≠ .endOfInput)
      (hLike : D.like t t') (hRest : Rows rest rest') : Rows (t :: rest) (t' :: rest')

/-- Both runs have taken a token, and the ones last taken are alike. -/
def Lasts (s u : Input) : Prop := ∃ t t', s.last = some t ∧ u.last = some t' ∧ D.like t t'

/-- The runs have rows ahead that are alike, of no more than `n` tokens. -/
structure Facing (begun : Prop) (n : Nat) (s u : Input) : Prop where
  rows : D.Rows s.rest u.rest
  lasts : begun → D.Lasts s u
  le : s.rest.length ≤ n
  left_size : s.rest.length ≤ s.size
  right_size : u.rest.length ≤ u.size

/-- The runs have taken all that is alike, and what they have ahead need not be alike. -/
structure Past (n : Nat) (s u : Input) : Prop where
  isOpen : D.isOpen
  left_rest : s.rest = [D.finish]
  right_rest : u.rest = D.follow :: D.later
  lasts : D.Lasts s u
  le : s.rest.length ≤ n
  left_size : s.rest.length ≤ s.size
  right_size : u.rest.length ≤ u.size

/-- The runs have both begun, and are not past the end. -/
abbrev Inside (n : Nat) (s u : Input) : Prop := D.Facing True n s u

/-- The runs have both begun, and may be past the end. -/
def After (n : Nat) (s u : Input) : Prop := D.Inside n s u ∨ D.Past n s u

/-- The runs have just taken tokens of a kind, and have less than `n` tokens ahead. Only a token that
closes a statement leads past the end. -/
structure Taken (kind : TokenKind) (n : Nat) (s u : Input) : Prop where
  after : D.After n s u
  inside : kind.closes = false → D.Inside n s u
  lt : s.rest.length < n

/-- The runs have the token `t`, and one that is like it, ahead. -/
def Sees (begun : Prop) (n : Nat) (t : Token) (s u : Input) : Prop :=
  D.Facing begun n s u ∧ ∃ rest, s.rest = t :: rest

/-- How two runs end: with results and states that are related, or with errors that say the same.
Nothing is said about the second run of an open comparison when the first one fails. -/
inductive Outcome {α β : Type} (R : α → β → Prop) (post : Input → Input → Prop) :
    Except SyntaxError (α × Input) → Except SyntaxError (β × Input) → Prop where
  | done {a : α} {b : β} {s u : Input} (hSame : R a b) (hPost : post s u) :
      Outcome R post (.ok (a, s)) (.ok (b, u))
  | failed {e e' : ParseError} (hCause : e'.cause = e.cause) (hFound : e'.found = e.found) :
      Outcome R post (.error (.parse e)) (.error (.parse e'))
  | broken {e : SyntaxError} {r : Except SyntaxError (β × Input)} (hOpen : D.isOpen) :
      Outcome R post (.error e) r

/-- Run from states related by `pre`, the parsers end in results related by `R` and in states
related by `post`, or in errors that say the same. -/
def Tracks {α β : Type} (pre : Input → Input → Prop) (p : Parser α) (q : Parser β)
    (R : α → β → Prop) (post : Input → Input → Prop) : Prop :=
  ∀ s u, pre s u → D.Outcome R post (p s) (q u)

variable {D : Comparison}

/-! ## States -/

section

variable {b : Prop} {n m : Nat} {s u : Input} {t t' : Token} {rest rest' : List Token}

theorem kind_eq (h : D.like t t') : t'.kind = t.kind := congrArg Prod.fst (D.face h)

theorem lexeme_eq (h : D.like t t') : t'.lexeme = t.lexeme :=
  congrArg (fun face => face.2.1) (D.face h)

theorem literal_eq (h : D.like t t') : t'.literal = t.literal :=
  congrArg (fun face => face.2.2) (D.face h)

theorem describe_eq (h : D.like t t') : t'.describe = t.describe := by
  rw [Token.describe, kind_eq h, lexeme_eq h]
  rfl

theorem Rows.exists_cons (h : D.Rows rest rest') :
    ∃ t t' ts ts', rest = t :: ts ∧ rest' = t' :: ts' ∧ D.like t t' := by
  cases h with
  | shut _ hLike => exact ⟨_, _, _, _, rfl, rfl, hLike⟩
  | last _ _ hLike => exact ⟨_, _, _, _, rfl, rfl, hLike⟩
  | cons _ hLike _ => exact ⟨_, _, _, _, rfl, rfl, hLike⟩

theorem Rows.length_eq (h : D.Rows rest rest') :
    rest'.length = rest.length + D.later.length := by
  induction h with
  | shut => simp [Nat.add_comm]
  | last => simp [Nat.add_comm, Nat.add_left_comm]
  | cons _ _ _ ih =>
    rw [List.length_cons, List.length_cons, ih]
    omega

/-- In a comparison that is not open the whole rows are alike. -/
theorem rows_of_shut (hShut : ¬D.isOpen) (hEnd : D.like D.finish D.follow)
    (h : List.Forall₂ D.like rest rest') (hKinds : ∀ t ∈ rest, t.kind ≠ .endOfInput) :
    D.Rows (rest ++ [D.finish]) (rest' ++ D.follow :: D.later) := by
  induction h with
  | nil => exact .shut hShut hEnd
  | cons hLike _ ih =>
    obtain ⟨hKind, hLater⟩ := List.forall_mem_cons.mp hKinds
    exact .cons hKind hLike (ih hLater)

/-- In an open comparison they are alike up to a token that closes a statement. -/
theorem rows_of_open (hOpen : D.isOpen) (hCloses : t.kind.closes = true) (hLike : D.like t t')
    (h : List.Forall₂ D.like rest rest') (hKinds : ∀ t ∈ rest, t.kind ≠ .endOfInput) :
    D.Rows (rest ++ [t, D.finish]) (rest' ++ t' :: D.follow :: D.later) := by
  induction h with
  | nil => exact .last hOpen hCloses hLike
  | cons hHead _ ih =>
    obtain ⟨hKind, hLater⟩ := List.forall_mem_cons.mp hKinds
    exact .cons hKind hHead (ih hLater)

theorem Facing.mono (hLe : n ≤ m) (h : D.Facing b n s u) : D.Facing b m s u :=
  { h with le := Nat.le_trans h.le hLe }

theorem Facing.fresh (h : D.Facing b n s u) : D.Facing False n s u :=
  { h with lasts := nofun }

theorem Facing.pos (h : D.Facing b n s u) : 0 < s.rest.length := by
  obtain ⟨t, t', ts, ts', hLeft, -, -⟩ := h.rows.exists_cons
  rw [hLeft]
  exact Nat.succ_pos _

theorem After.mono (hLe : n ≤ m) (h : D.After n s u) : D.After m s u :=
  h.imp (Facing.mono hLe) fun h => { h with le := Nat.le_trans h.le hLe }

theorem After.lasts (h : D.After n s u) : D.Lasts s u :=
  h.elim (fun h => h.lasts trivial) fun h => h.lasts

/-- In a comparison that is not open nothing is past the end. -/
theorem After.inside (hShut : ¬D.isOpen) (h : D.After n s u) : D.Inside n s u :=
  h.resolve_right fun h => hShut h.isOpen

theorem Sees.facing (h : D.Sees b n t s u) : D.Facing b n s u := h.1

/-- States from which the first run has at most `n` tokens ahead, with a state of the second run
that has as many and then what is left there. -/
structure Measured (D : Comparison) (I : Nat → Input → Input → Prop) : Prop where
  mono : ∀ {n m s u}, n ≤ m → I n s u → I m s u
  tight : ∀ {n s u}, I n s u → I s.rest.length s u
  le : ∀ {n s u}, I n s u → s.rest.length ≤ n
  pos : ∀ {n s u}, I n s u → 0 < s.rest.length
  left_size : ∀ {n s u}, I n s u → s.rest.length ≤ s.size
  right_size : ∀ {n s u}, I n s u → s.rest.length + D.later.length ≤ u.size

theorem measured_facing (b : Prop) : D.Measured (D.Facing b) where
  mono hLe h := h.mono hLe
  tight h := { h with le := Nat.le_refl _ }
  le h := h.le
  pos h := h.pos
  left_size h := h.left_size
  right_size h := h.rows.length_eq ▸ h.right_size

theorem measured_after : D.Measured D.After where
  mono hLe h := h.mono hLe
  tight h := h.imp (fun h => { h with le := Nat.le_refl _ }) fun h => { h with le := Nat.le_refl _ }
  le h := h.elim (fun h => h.le) fun h => h.le
  pos h := h.elim (fun h => h.pos) fun h => by
    rw [h.left_rest]
    exact Nat.one_pos
  left_size h := h.elim (fun h => h.left_size) fun h => h.left_size
  right_size h := h.elim (measured_facing True).right_size fun h => by
    have hSize := h.right_size
    rw [h.right_rest, List.length_cons] at hSize
    rw [h.left_rest, List.length_singleton]
    omega

theorem Taken.inside_lt {kind : TokenKind} (hCloses : kind.closes = false)
    (h : D.Taken kind (n + 1) s u) : D.Inside n s u :=
  (measured_facing True).mono (Nat.le_of_lt_succ h.lt)
    ((measured_facing True).tight (h.inside hCloses))

end

/-! ## Results -/

section

variable {α β α' β' : Type} {pre pre' mid post post' : Input → Input → Prop} {p : Parser α}
  {q : Parser α'} {R : α → α' → Prop} {S : β → β' → Prop} {f : α → Parser β} {g : α' → Parser β'}

theorem tracks_pure {a : α} {a' : α'} (h : R a a') (hPost : ∀ s u, pre s u → post s u) :
    D.Tracks pre (pure a) (pure a') R post := fun s u hPre => .done h (hPost s u hPre)

theorem tracks_failAt {t t' : Token} {cause : ParseCause} (h : D.like t t') :
    D.Tracks pre (Parser.failAt t cause : Parser α) (Parser.failAt t' cause : Parser α') R post :=
  fun _ _ _ => .failed rfl (describe_eq h)

theorem tracks_bind (hp : D.Tracks pre p q R mid)
    (hNext : ∀ a a', R a a' → D.Tracks mid (f a) (g a') S post) :
    D.Tracks pre (p >>= f) (q >>= g) S post := by
  intro s u hPre
  have hFirst := hp s u hPre
  change D.Outcome S post (p s >>= fun x => f x.1 x.2) (q u >>= fun x => g x.1 x.2)
  generalize p s = x at hFirst ⊢
  generalize q u = y at hFirst ⊢
  cases hFirst with
  | done hSame hMid => exact hNext _ _ hSame _ _ hMid
  | failed hCause hFound => exact .failed hCause hFound
  | broken hOpen => exact .broken hOpen

theorem tracks_mono {R' : α → α' → Prop} (h : D.Tracks pre' p q R' post')
    (hPre : ∀ s u, pre s u → pre' s u) (hPost : ∀ s u, post' s u → post s u)
    (hImp : ∀ a a', R' a a' → R a a') : D.Tracks pre p q R post := by
  intro s u hHere
  have hOutcome := h s u (hPre s u hHere)
  generalize p s = x at hOutcome ⊢
  generalize q u = y at hOutcome ⊢
  cases hOutcome with
  | done hSame hEnd => exact .done (hImp _ _ hSame) (hPost _ _ hEnd)
  | failed hCause hFound => exact .failed hCause hFound
  | broken hOpen => exact .broken hOpen

theorem tracks_from (hPre : ∀ s u, pre s u → pre' s u) (h : D.Tracks pre' p q R post) :
    D.Tracks pre p q R post :=
  tracks_mono h hPre (fun _ _ h => h) fun _ _ h => h

theorem tracks_map {k : α → β} {k' : α' → β'} (h : D.Tracks pre p q R post)
    (hImp : ∀ a a', R a a' → S (k a) (k' a')) : D.Tracks pre (k <$> p) (k' <$> q) S post := by
  rw [map_eq_pure_bind, map_eq_pure_bind]
  exact tracks_bind h fun a a' hSame => tracks_pure (hImp a a' hSame) fun _ _ h => h

theorem tracks_ite {c : Prop} [Decidable c] {p' : Parser α} {q' : Parser α'}
    (hp : c → D.Tracks pre p q R post) (hq : ¬c → D.Tracks pre p' q' R post) :
    D.Tracks pre (if c then p else p') (if c then q else q') R post := by
  split
  · exact hp ‹_›
  · exact hq ‹_›

/-- Past the end of an open comparison the second run does not matter where the first one fails. -/
theorem tracks_after {n : Nat} (h : D.Tracks (D.Inside n) p q R post)
    (hStuck : ∀ s, s.rest = [D.finish] → ∃ e, p s = .error e) :
    D.Tracks (D.After n) p q R post := by
  rintro s u (hInside | hPast)
  · exact h s u hInside
  · obtain ⟨e, he⟩ := hStuck s hPast.left_rest
    rw [he]
    exact .broken hPast.isOpen

/-- A row is never empty, so a bound on its length can be taken to be positive. -/
theorem tracks_pos {b : Prop} {n : Nat}
    (h : ∀ m, n = m + 1 → D.Tracks (D.Facing b n) p q R post) :
    D.Tracks (D.Facing b n) p q R post := by
  cases n with
  | zero => exact fun s u hPre => absurd (Nat.lt_of_lt_of_le hPre.pos hPre.le) (Nat.lt_irrefl 0)
  | succ n => exact h n rfl

theorem tracks_of_succ {b : Prop} {n : Nat} {I : Nat → Input → Input → Prop} (hI : D.Measured I)
    (h : ∀ n, D.Tracks (D.Facing False (n + 1)) p q R (I n)) :
    D.Tracks (D.Facing b n) p q R (I n) := by
  refine tracks_pos fun m hm => ?_
  subst hm
  exact tracks_mono (h m) (fun _ _ h => h.fresh) (fun _ _ h => hI.mono (Nat.le_succ m) h)
    fun _ _ h => h

end

/-! ## Tokens -/

section

open Tern.Parser

variable {α α' β : Type} {pre mid post : Input → Input → Prop} {R : α → α' → Prop} {b : Prop} {n : Nat}
  {t : Token} {kind : TokenKind} {wanted : String}

theorem peek_finish {s : Input} (h : s.rest = [D.finish]) : peek s = .ok (D.finish, s) :=
  peek_cons h

theorem tracks_peek_bind {f : Token → Parser α} {g : Token → Parser α'}
    (h : ∀ t t', D.like t t' → D.Tracks (D.Sees b n t) (f t) (g t') R post) :
    D.Tracks (D.Facing b n) (peek >>= f) (peek >>= g) R post := by
  intro s u hFacing
  obtain ⟨t, t', ts, ts', hLeft, hRight, hLike⟩ := hFacing.rows.exists_cons
  rw [bind_ok (peek_cons hLeft), bind_ok (peek_cons hRight)]
  exact h t t' hLike s u ⟨hFacing, ts, hLeft⟩

/-- The runs take a token each. -/
theorem tracks_advance (hKind : t.kind ≠ .endOfInput) :
    D.Tracks (D.Sees b n t) advance advance (fun v v' => v = t ∧ D.like v v')
      (D.Taken t.kind n) := by
  rintro s u ⟨hFacing, rest, hRest⟩
  obtain ⟨hRows, -, hLe, hLeft, hRight⟩ := hFacing
  have hTake : ∀ {w : Input} {v : Token} {ts : List Token}, w.rest = v :: ts →
      v.kind ≠ .endOfInput → advance w = .ok (v, { w with rest := ts, last := some v }) := by
    intro w v ts hRow hKind
    have hTail : w.rest = v :: w.rest.tail := by rw [hRow]; rfl
    rw [advance_cons hTail hKind, hRow]
    rfl
  rw [hTake hRest hKind]
  rw [hRest] at hRows hLe hLeft
  generalize hRow : u.rest = row at hRows hRight
  cases hRows with
  | shut => exact absurd D.ending hKind
  | @last _ t' hOpen hCloses hLike =>
    rw [hTake hRow (kind_eq hLike ▸ hKind)]
    have hPast : D.Past n { s with rest := [D.finish], last := some t }
        { u with rest := D.follow :: D.later, last := some t' } :=
      ⟨hOpen, rfl, rfl, ⟨_, _, rfl, rfl, hLike⟩, Nat.le_of_succ_le hLe,
        Nat.le_of_succ_le hLeft, Nat.le_of_succ_le hRight⟩
    exact .done ⟨rfl, hLike⟩
      ⟨.inr hPast, fun hNot => absurd (hCloses.symm.trans hNot) nofun, hLe⟩
  | @cons _ t' _ rest' _ hLike hRows =>
    rw [hTake hRow (kind_eq hLike ▸ hKind)]
    have hInside : D.Inside n { s with rest := rest, last := some t }
        { u with rest := rest', last := some t' } :=
      ⟨hRows, fun _ => ⟨_, _, rfl, rfl, hLike⟩, Nat.le_of_succ_le hLe,
        Nat.le_of_succ_le hLeft, Nat.le_of_succ_le hRight⟩
    exact .done ⟨rfl, hLike⟩ ⟨.inl hInside, fun _ => hInside, hLe⟩

theorem tracks_advance_bind {f : Token → Parser α} {g : Token → Parser α'}
    (hKind : t.kind ≠ .endOfInput) (hTaken : ∀ {s u}, D.Taken t.kind n s u → mid s u)
    (h : ∀ t', D.like t t' → D.Tracks mid (f t) (g t') R post) :
    D.Tracks (D.Sees b n t) (advance >>= f) (advance >>= g) R post := by
  refine tracks_bind (tracks_advance hKind) fun v v' hv => tracks_from (fun _ _ => hTaken) ?_
  obtain ⟨rfl, hLike⟩ := hv
  exact h v' hLike

theorem tracks_check_bind {f : Bool → Parser α} {g : Bool → Parser α'}
    (h : ∀ c t, (c = true ↔ t.kind = kind) → D.Tracks (D.Sees b n t) (f c) (g c) R post) :
    D.Tracks (D.Facing b n) (check kind >>= f) (check kind >>= g) R post := by
  unfold check
  rw [bind_assoc, bind_assoc]
  refine tracks_peek_bind fun t t' hLike => ?_
  rw [pure_bind, pure_bind, kind_eq hLike]
  exact h _ t (by rw [decide_eq_true_iff])

theorem tracks_atClose_bind {f : Bool → Parser α} {g : Bool → Parser α'}
    (h : ∀ c t, (c = true ↔ t.kind = .rightBrace ∨ t.kind = .endOfInput) →
      D.Tracks (D.Sees b n t) (f c) (g c) R post) :
    D.Tracks (D.Facing b n) (atClose >>= f) (atClose >>= g) R post := by
  unfold atClose
  rw [bind_assoc, bind_assoc]
  refine tracks_peek_bind fun t t' hLike => ?_
  rw [pure_bind, pure_bind, kind_eq hLike]
  exact h _ t (by rw [Bool.or_eq_true, decide_eq_true_iff, decide_eq_true_iff])

/-- A token that is wanted is taken. -/
theorem tracks_take_bind {f : Token → Parser α} {g : Token → Parser α'}
    (hEnd : kind ≠ .endOfInput) (hTaken : ∀ {s u}, D.Taken kind n s u → mid s u)
    (h : ∀ t t', t.kind = kind → D.like t t' → D.Tracks mid (f t) (g t') R post) :
    D.Tracks (D.Facing b n) (expect kind wanted >>= f) (expect kind wanted >>= g) R post := by
  have hExpect : D.Tracks (D.Facing b n) (expect kind wanted) (expect kind wanted)
      (fun t t' => t.kind = kind ∧ D.like t t') mid := by
    refine tracks_peek_bind fun t t' hLike => ?_
    rw [kind_eq hLike]
    refine tracks_ite (fun hKind => ?_) fun _ => tracks_failAt hLike
    refine tracks_mono (tracks_advance (hKind ▸ hEnd)) (fun _ _ h => h)
      (fun _ _ hHere => hTaken (hKind ▸ hHere)) fun v v' hv => ?_
    exact ⟨hv.1 ▸ hKind, hv.2⟩
  exact tracks_bind hExpect fun t t' ht => h t t' ht.1 ht.2

/-- A parser that fails where nothing is ahead. -/
def Stuck (D : Comparison) (p : Parser α) : Prop :=
  ∀ s : Input, s.rest = [D.finish] → ∃ e, p s = .error e

theorem stuck_bind {p : Parser α} {f : α → Parser β} (h : D.Stuck p) : D.Stuck (p >>= f) := by
  intro s hRest
  obtain ⟨e, he⟩ := h s hRest
  refine ⟨e, ?_⟩
  change (p s >>= fun x => f x.1 x.2) = _
  rw [he]
  rfl

theorem stuck_expect (hEnd : kind ≠ .endOfInput) : D.Stuck (expect kind wanted) := by
  intro s hRest
  have hNot : D.finish.kind ≠ kind := fun h => hEnd (h.symm.trans D.ending)
  refine ⟨.parse ⟨.unexpected wanted, D.finish.describe, D.finish.pos⟩, ?_⟩
  unfold expect
  rw [bind_ok (peek_finish hRest), if_neg hNot]
  rfl

/-- Where the runs have passed the end, the first one does not find the token that is wanted. -/
theorem tracks_expect_bind {f : Token → Parser α} {g : Token → Parser α'}
    (hEnd : kind ≠ .endOfInput) (hTaken : ∀ {s u}, D.Taken kind n s u → mid s u)
    (h : ∀ t t', t.kind = kind → D.like t t' → D.Tracks mid (f t) (g t') R post) :
    D.Tracks (D.After n) (expect kind wanted >>= f) (expect kind wanted >>= g) R post :=
  tracks_after (tracks_take_bind hEnd hTaken h) (stuck_bind (stuck_expect hEnd))

theorem tracks_accept_bind {f : Bool → Parser α} {g : Bool → Parser α'}
    (hEnd : kind ≠ .endOfInput) (hTaken : ∀ {s u}, D.Taken kind n s u → mid s u)
    (hYes : D.Tracks mid (f true) (g true) R post)
    (hNo : D.Tracks (D.Facing b n) (f false) (g false) R post) :
    D.Tracks (D.Facing b n) (accept kind >>= f) (accept kind >>= g) R post := by
  unfold accept
  rw [bind_assoc, bind_assoc]
  refine tracks_check_bind fun c t hc => ?_
  cases c with
  | false => exact tracks_from (fun _ _ h => h.facing) hNo
  | true =>
    have hKind := hc.mp rfl
    simp only [if_true, bind_assoc, pure_bind]
    exact tracks_advance_bind (hKind ▸ hEnd) (hKind ▸ hTaken) fun _ _ => hYes

theorem tracks_acceptAs_bind {wanted : TokenKind → Option β} {f : Option β → Parser α}
    {g : Option β → Parser α'}
    (hWanted : ∀ kind c, wanted kind = some c → kind ≠ .endOfInput ∧ kind.closes = false)
    (hNone : D.Tracks (D.Facing b (n + 1)) (f none) (g none) R post)
    (hSome : ∀ c, D.Tracks (D.Inside n) (f (some c)) (g (some c)) R post) :
    D.Tracks (D.Facing b (n + 1)) (acceptAs wanted >>= f) (acceptAs wanted >>= g) R post := by
  unfold acceptAs
  rw [bind_assoc, bind_assoc]
  refine tracks_peek_bind fun t t' hLike => ?_
  rw [kind_eq hLike]
  split
  · next c hc =>
    obtain ⟨hEnd, hCloses⟩ := hWanted _ _ hc
    rw [bind_assoc, bind_assoc]
    exact tracks_advance_bind hEnd (Taken.inside_lt hCloses) fun _ _ => hSome c
  · exact tracks_from (fun _ _ h => h.facing) hNone

/-- A token that may be there, of a kind that does not come after the end of an open comparison. -/
theorem tracks_check_after_bind {f : Bool → Parser α} {g : Bool → Parser α'}
    (hEnd : kind ≠ .endOfInput) (hApart : D.isOpen → D.follow.kind ≠ kind)
    (hYes : ∀ t, t.kind = kind → D.Tracks (D.Sees True n t) (f true) (g true) R post)
    (hNo : D.Tracks (D.After n) (f false) (g false) R post) :
    D.Tracks (D.After n) (check kind >>= f) (check kind >>= g) R post := by
  have hOther : ∀ {s : Input} {t : Token} {rest : List Token}, s.rest = t :: rest →
      t.kind ≠ kind → check kind s = .ok (false, s) := by
    intro s t rest hRest hNot
    unfold check
    rw [bind_ok (peek_cons hRest), decide_eq_false hNot]
    rfl
  rintro s u (hInside | hPast)
  · refine tracks_check_bind (fun c t hc => ?_) s u hInside
    cases c with
    | false => exact tracks_from (fun _ _ h => .inl h.facing) hNo
    | true => exact hYes t (hc.mp rfl)
  · have hNot : D.finish.kind ≠ kind := fun h => hEnd (h.symm.trans D.ending)
    rw [bind_ok (hOther hPast.left_rest hNot),
      bind_ok (hOther hPast.right_rest (hApart hPast.isOpen))]
    exact hNo s u (.inr hPast)

theorem tracks_accept_after_bind {f : Bool → Parser α} {g : Bool → Parser α'}
    (hEnd : kind ≠ .endOfInput) (hCloses : kind.closes = false)
    (hApart : D.isOpen → D.follow.kind ≠ kind)
    (hYes : D.Tracks (D.Inside n) (f true) (g true) R post)
    (hNo : D.Tracks (D.After n) (f false) (g false) R post) :
    D.Tracks (D.After n) (accept kind >>= f) (accept kind >>= g) R post := by
  unfold accept
  rw [bind_assoc, bind_assoc]
  refine tracks_check_after_bind hEnd hApart (fun t hKind => ?_) hNo
  simp only [if_true, bind_assoc, pure_bind]
  exact tracks_advance_bind (hKind ▸ hEnd) (fun h => h.inside (hKind ▸ hCloses)) fun _ _ => hYes

theorem tracks_spanFrom_bind {start start' : Token} {f : Option Span → Parser α}
    {g : Option Span → Parser α'} (hLasts : ∀ {s u}, pre s u → D.Lasts s u)
    (hStart : D.like start start')
    (h : ∀ v v', D.Same v v' → D.Tracks pre (f v) (g v') R post) :
    D.Tracks pre (spanFrom start >>= f) (spanFrom start' >>= g) R post := by
  intro s u hPre
  obtain ⟨t, t', hLast, hLast', hLike⟩ := hLasts hPre
  have hSpan : spanFrom start s = .ok (some ⟨start.pos, t.stop⟩, s) := by
    change Except.ok (some (Span.mk start.pos (s.last.getD start).stop), s) = _
    rw [hLast]
    rfl
  have hSpan' : spanFrom start' u = .ok (some ⟨start'.pos, t'.stop⟩, u) := by
    change Except.ok (some (Span.mk start'.pos (u.last.getD start').stop), u) = _
    rw [hLast']
    rfl
  rw [bind_ok hSpan, bind_ok hSpan']
  exact h _ _ (D.spans hStart hLike) s u hPre

theorem tracks_previous_bind {f : Token → Parser α} {g : Token → Parser α'}
    (hLasts : ∀ {s u}, pre s u → D.Lasts s u)
    (h : ∀ t t', D.like t t' → D.Tracks pre (f t) (g t') R post) :
    D.Tracks pre (previous >>= f) (previous >>= g) R post := by
  intro s u hPre
  obtain ⟨t, t', hLast, hLast', hLike⟩ := hLasts hPre
  have hPrevious : ∀ {w : Input} {v : Token}, w.last = some v → previous w = .ok (v, w) := by
    intro w v hLast
    have hGet : (get : Parser Input) w = .ok (w, w) := rfl
    unfold previous
    rw [bind_ok hGet, hLast]
    rfl
  rw [bind_ok (hPrevious hLast), bind_ok (hPrevious hLast')]
  exact h t t' hLike s u hPre

theorem tracks_ident_bind {f : Ident → Parser α} {g : Ident → Parser α'}
    (h : ∀ id id', D.Same id id' → D.Tracks (D.Inside n) (f id) (g id') R post) :
    D.Tracks (D.After n) (ident wanted >>= f) (ident wanted >>= g) R post := by
  unfold ident
  rw [bind_assoc, bind_assoc]
  refine tracks_expect_bind (by decide) (fun h => h.inside rfl) fun t t' _ hLike => ?_
  rw [bind_assoc, bind_assoc]
  refine tracks_spanFrom_bind (fun h => h.lasts trivial) hLike fun v v' hv => ?_
  rw [pure_bind, pure_bind]
  refine h _ _ ?_
  change Ident.mk t.lexeme (D.left v) = Ident.mk t'.lexeme (D.right v')
  rw [lexeme_eq hLike]
  exact congrArg _ hv

end

/-! ## Repetition -/

section

open Tern.Parser

variable {α α' β β' : Type} {R : α → α' → Prop} {S : β → β' → Prop} {post : Input → Input → Prop}
  {n : Nat}

/-- Repetitions stay side by side if each round does and takes a token. The rows bound the rounds,
so neither runs out of fuel. -/
theorem tracks_chainUpTo {I J : Nat → Input → Input → Prop} (hI : D.Measured I)
    {more : Parser (Option β)} {step : α → β → Parser α} {step' : α' → β → Parser α'}
    (hMore : ∀ (n : Nat) (f : Option β → Parser α) (g : Option β → Parser α')
      (post : Input → Input → Prop), D.Tracks (I (n + 1)) (f none) (g none) R post →
      (∀ c, D.Tracks (J n) (f (some c)) (g (some c)) R post) →
      D.Tracks (I (n + 1)) (more >>= f) (more >>= g) R post)
    (hStep : ∀ n a a' c, R a a' → D.Tracks (J n) (step a c) (step' a' c) R (I n))
    (fuel fuel' : Nat) (hFuel : n < fuel) (hFuel' : n + D.later.length < fuel') {a : α} {a' : α'}
    (h : R a a') :
    D.Tracks (I n) (chainUpTo more step fuel a) (chainUpTo more step' fuel' a') R (I n) := by
  induction n generalizing fuel fuel' a a' with
  | zero => exact fun s u hPre =>
      absurd (Nat.lt_of_lt_of_le (hI.pos hPre) (hI.le hPre)) (Nat.lt_irrefl 0)
  | succ n ih =>
    cases fuel with
    | zero => cases hFuel
    | succ fuel =>
      cases fuel' with
      | zero => cases hFuel'
      | succ fuel' =>
        unfold chainUpTo
        refine hMore n _ _ _ (tracks_pure h fun _ _ h => h) fun c => ?_
        refine tracks_bind (hStep n a a' c h) fun d d' hd => ?_
        exact tracks_mono (ih fuel fuel' (by omega) (by omega) hd) (fun _ _ h => h)
          (fun _ _ h => hI.mono (Nat.le_succ n) h) fun _ _ h => h

theorem tracks_chain {I J : Nat → Input → Input → Prop} (hI : D.Measured I)
    {more : Parser (Option β)} {step : α → β → Parser α} {step' : α' → β → Parser α'}
    (hMore : ∀ (n : Nat) (f : Option β → Parser α) (g : Option β → Parser α')
      (post : Input → Input → Prop), D.Tracks (I (n + 1)) (f none) (g none) R post →
      (∀ c, D.Tracks (J n) (f (some c)) (g (some c)) R post) →
      D.Tracks (I (n + 1)) (more >>= f) (more >>= g) R post)
    (hStep : ∀ n a a' c, R a a' → D.Tracks (J n) (step a c) (step' a' c) R (I n)) {a : α} {a' : α'}
    (h : R a a') : D.Tracks (I n) (chain more step a) (chain more step' a') R (I n) := by
  intro s u hPre
  have hLeft := hI.left_size hPre
  have hRight := hI.right_size hPre
  have hRun := tracks_chainUpTo hI hMore hStep (s.size + 1) (u.size + 1) (Nat.lt_succ_of_le hLeft)
    (Nat.lt_succ_of_le hRight) h
  exact tracks_mono hRun (fun _ _ h => h) (fun _ _ h => hI.mono (hI.le hPre) h) (fun _ _ h => h)
    s u (hI.tight hPre)

theorem stuck_chainUpTo {γ : Type} {more : Parser (Option γ)} {step : α → γ → Parser α}
    {k : α → Parser β} (hStop : ∀ s : Input, s.rest = [D.finish] → more s = .ok (none, s))
    (hStuck : ∀ a, D.Stuck (k a)) (fuel : Nat) (a : α) :
    D.Stuck (chainUpTo more step fuel a >>= k) := by
  intro s hRest
  cases fuel with
  | zero => exact hStuck a s hRest
  | succ fuel =>
    unfold chainUpTo
    rw [bind_assoc, bind_ok (hStop s hRest)]
    exact hStuck a s hRest

/-- Repetitions whose rounds may lead past the end, where nothing more is repeated and what comes
after the repetition fails. -/
theorem tracks_rounds_bind {γ : Type} {more : Parser (Option γ)} {step : α → γ → Parser α}
    {step' : α' → γ → Parser α'} {k : α → Parser β} {k' : α' → Parser β'}
    (hMore : ∀ (n : Nat) (f : Option γ → Parser β) (g : Option γ → Parser β'),
      D.Tracks (D.Inside (n + 1)) (f none) (g none) S post →
      (∀ c, D.Tracks (D.Inside (n + 1)) (f (some c)) (g (some c)) S post) →
      D.Tracks (D.Inside (n + 1)) (more >>= f) (more >>= g) S post)
    (hStop : ∀ s : Input, s.rest = [D.finish] → more s = .ok (none, s))
    (hStep : ∀ n a a' c, R a a' → D.Tracks (D.Inside (n + 1)) (step a c) (step' a' c) R (D.After n))
    (hStuck : ∀ a, D.Stuck (k a)) {n : Nat}
    (hNext : ∀ a a', R a a' → D.Tracks (D.Inside n) (k a) (k' a') S post) {a : α} {a' : α'}
    (h : R a a') :
    D.Tracks (D.Inside n) (chain more step a >>= k) (chain more step' a' >>= k') S post := by
  have hUpTo : ∀ m fuel fuel' a a', m ≤ n → m < fuel → m + D.later.length < fuel' → R a a' →
      D.Tracks (D.Inside m) (chainUpTo more step fuel a >>= k) (chainUpTo more step' fuel' a' >>= k')
        S post := by
    intro m
    induction m with
    | zero => exact fun _ _ _ _ _ _ _ _ s u hPre =>
        absurd (Nat.lt_of_lt_of_le hPre.pos hPre.le) (Nat.lt_irrefl 0)
    | succ m ih =>
      intro fuel fuel' a a' hLe hFuel hFuel' hSame
      obtain ⟨fuel, rfl⟩ := Nat.exists_eq_add_one_of_ne_zero (Nat.ne_zero_of_lt hFuel)
      obtain ⟨fuel', rfl⟩ := Nat.exists_eq_add_one_of_ne_zero (Nat.ne_zero_of_lt hFuel')
      unfold chainUpTo
      rw [bind_assoc, bind_assoc]
      refine hMore m _ _ (tracks_from (fun _ _ h => h.mono hLe) (hNext a a' hSame)) fun c => ?_
      simp only [bind_assoc]
      refine tracks_bind (hStep m a a' c hSame) fun d d' hd => ?_
      exact tracks_after (ih fuel fuel' d d' (by omega) (by omega) (by omega) hd)
        (stuck_chainUpTo hStop hStuck fuel d)
  intro s u hPre
  have hLeft := (measured_facing True).left_size hPre
  have hRight := (measured_facing True).right_size hPre
  exact hUpTo s.rest.length (s.size + 1) (u.size + 1) a a' hPre.le (Nat.lt_succ_of_le hLeft)
    (Nat.lt_succ_of_le hRight) h s u ((measured_facing True).tight hPre)

end

/-! ## Lists -/

section

open Tern.Parser

variable {α β β' : Type} [Spanned α] {post : Input → Input → Prop} {S : β → β' → Prop} {n : Nat}

theorem same_nil : D.Same ([] : List α) [] := rfl

theorem same_cons {a a' : α} {as as' : List α} (h : D.Same a a') (hs : D.Same as as') :
    D.Same (a :: as) (a' :: as') := congrArg₂ List.cons h hs

theorem same_some {a a' : α} (h : D.Same a a') : D.Same (some a) (some a') := congrArg some h

theorem same_reverse {as as' : List α} (h : D.Same as as') : D.Same as.reverse as'.reverse := by
  change as.reverse.map (Spanned.respan D.left) = as'.reverse.map (Spanned.respan D.right)
  rw [List.map_reverse, List.map_reverse]
  exact congrArg List.reverse h

/-- Items up to a closing brace, which must be there. -/
theorem tracks_untilClose_bind {item : Parser α} {wanted : String} {f : List α → Token → Parser β}
    {g : List α → Token → Parser β'}
    (hItem : ∀ n, D.Tracks (D.Facing False (n + 1)) item item D.Same (D.After n))
    (hNext : ∀ as as' t t', D.Same as as' → D.Tracks (D.After n) (f as t) (g as' t') S post) :
    D.Tracks (D.Inside n) (untilClose item >>= fun as => expect .rightBrace wanted >>= f as)
      (untilClose item >>= fun as => expect .rightBrace wanted >>= g as) S post := by
  unfold untilClose
  simp only [bind_assoc, pure_bind]
  refine tracks_rounds_bind (R := D.Same) ?_ ?_ ?_ ?_ ?_ same_nil
  · intro n f g hNone hSome
    simp only [bind_assoc]
    refine tracks_atClose_bind fun c t _ => tracks_from (fun _ _ h => h.facing) ?_
    cases c with
    | true => simpa using hNone
    | false => simpa using hSome ()
  · intro s hRest
    simp only [atClose, bind_assoc, pure_bind]
    rw [bind_ok (peek_finish hRest), D.ending]
    rfl
  · intro n as as' _ hSame
    refine tracks_bind (tracks_from (fun _ _ h => h.fresh) (hItem n)) fun a a' ha => ?_
    exact tracks_pure (same_cons ha hSame) fun _ _ h => h
  · exact fun as => stuck_bind (stuck_expect (by decide))
  · intro as as' hSame
    refine tracks_from (fun _ _ h => .inl h) (tracks_expect_bind (by decide) Taken.after ?_)
    exact fun t t' _ _ => hNext _ _ t t' (same_reverse hSame)

/-- Items with commas between them. -/
theorem tracks_commaSeparated {close : TokenKind} {item : List α → Parser α}
    (hItem : ∀ before before' n, D.Same before before' →
      D.Tracks (D.Inside n) (item before) (item before') D.Same (D.Inside n)) :
    D.Tracks (D.Inside n) (commaSeparated close item) (commaSeparated close item) D.Same
      (D.Inside n) := by
  unfold commaSeparated
  refine tracks_check_bind fun c t _ => tracks_from (fun _ _ h => h.facing) ?_
  refine tracks_ite (fun _ => tracks_pure same_nil fun _ _ h => h) fun _ => ?_
  refine tracks_bind (hItem [] [] n same_nil) fun first first' hFirst => ?_
  refine tracks_bind (tracks_chain (measured_facing True) (J := D.Inside) (R := D.Same) ?_ ?_
    (same_cons hFirst same_nil)) fun as as' hSame => tracks_pure (same_reverse hSame) fun _ _ h => h
  · intro n f g post hNone hSome
    simp only [bind_assoc]
    refine tracks_accept_bind (by decide) (Taken.inside_lt rfl) ?_ ?_
    · simpa using hSome ()
    · simpa using hNone
  · intro n as as' _ hSame
    refine tracks_bind (hItem as as' n hSame) fun a a' ha => ?_
    exact tracks_pure (same_cons ha hSame) fun _ _ h => h

end

end Comparison

end Tern
