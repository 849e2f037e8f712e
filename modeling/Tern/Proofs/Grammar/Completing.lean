import Tern.Proofs.Grammar.Ending
import Tern.Proofs.Grammar.Postcondition
import Tern.Proofs.Token.Layout

/-!
# Rows that are taken and rows that can be completed

A parser that succeeds has taken a row of terminals of some form. A parser completes what it reads
if, where it fails early, the row ahead is the beginning of one that has the form: some terminals
that can be written down are missing. `Parser.Completes` says the first, and under a condition, that
the parser is held to it, also the second; so a parser of the grammar is treated once for both.

The parts of a row are completed one after another. When one of them stops early, what comes after
it is completed by running the rest of the parser where nothing is ahead; so the rest must not fail
there for a reason of its own.

* `Terminal.Written`: terminals that can be written down;
* `Parser.Completes`: parsers that take what they should, and complete it if they are held to it;
* `Parser.completes_bind`: one part after another;
* `Parser.completes_chainUpTo`: repetitions.
-/

namespace Tern

open Terminal (first isMark)

/-! ## Terminals that can be written -/

/-- A terminal that can be written down. -/
def Terminal.Written (t : Terminal) : Prop :=
  ∃ u : Token, u.terminal = t ∧ Lexeme u.kind u.lexeme.toList u.literal

namespace Terminal

theorem written_mark {kind : TokenKind} (h : isMark kind = true) : (mark kind).Written := by
  have hKnown : kind ∈ TokenKind.symbols ∨ kind ∈ TokenKind.keywords := by
    cases kind <;> first | decide | cases h
  refine ⟨⟨kind, kind.text, .first, none⟩, eq_mark h (Token.kind_terminal _), ?_⟩
  exact hKnown.elim .symbol .keyword

/-- There are more names than any list has. -/
theorem exists_name (names : List String) : ∃ w, w ∉ names ∧ (name w).Written := by
  obtain ⟨n, hLong⟩ : ∃ n, ∀ w ∈ names, w.length ≤ n := by
    induction names with
    | nil => exact ⟨0, nofun⟩
    | cons a names ih =>
      obtain ⟨n, hn⟩ := ih
      refine ⟨a.length + n, List.forall_mem_cons.mpr ⟨Nat.le_add_right _ _, fun w hw => ?_⟩⟩
      exact Nat.le_add_left_of_le (hn w hw)
  let w := String.ofList ('x' :: List.replicate n 'x')
  refine ⟨w, fun hMem => ?_, ⟨.identifier, w, .first, none⟩, rfl, ?_⟩
  · have hLe := hLong w hMem
    rw [String.length_ofList, List.length_cons, List.length_replicate] at hLe
    exact Nat.lt_irrefl n hLe
  · rw [String.toList_ofList]
    refine .identifier rfl (fun d hd => ?_) fun kind hKind hText => ?_
    · rw [List.eq_of_mem_replicate hd]
      rfl
    · have hHead : ∀ kind ∈ TokenKind.keywords, kind.text.toList.head? ≠ some 'x' := by
        decide +kernel
      exact hHead kind hKind (by rw [hText]; rfl)

end Terminal

/-- A token is not described as the end of input unless it is that. -/
theorem Token.describe_ne {t : Token} (h : t.kind ≠ .endOfInput) : t.describe ≠ "end of input" := by
  intro hText
  have hHead := congrArg (fun s : String => s.toList.head?) hText
  unfold describe at hHead
  split at hHead
  · exact h ‹_›
  · simp at hHead
  · simp at hHead
  · simp at hHead
  · simp at hHead

/-- Where nothing is ahead nothing is taken. -/
theorem Input.Leads.ahead_end {s s' : Input} {xs : List Terminal} (h : s.Leads xs s')
    (hEnd : s.ahead.kind = .endOfInput) : s'.ahead.kind = .endOfInput := by
  have hAll := h.terminals
  rw [terminals_eq_nil hEnd] at hAll
  rw [ahead, (List.append_eq_nil_iff.mp hAll.symm).2]
  rfl

namespace Parser

variable {α β : Type} {f : Terminal} {held late : Prop} {p : Parser α} {g : α → Parser β}
  {R : List Terminal → Terminal → α → Prop} {S : List Terminal → Terminal → β → Prop}

/-- How a parser ends from a state: with terminals taken that are related by `R`, or with an error.
If it is held to it, the error is early, with terminals missing that complete the row ahead, or
definite, where nothing is ahead only if `late`. -/
inductive Ends (held late : Prop) (R : List Terminal → Terminal → α → Prop) (s : Input) :
    Except SyntaxError (α × Input) → Prop where
  | done {a : α} {s' : Input} {xs : List Terminal} (taken : s.Leads xs s')
      (result : R xs s'.ahead a) : Ends held late R s (.ok (a, s'))
  | free {e : SyntaxError} (free : ¬held) : Ends held late R s (.error e)
  | early {e : SyntaxError} {ys : List Terminal} {a : α} (early : e.isEarly = true)
      (written : ∀ y ∈ ys, y.Written)
      (completed : R (s.terminals ++ ys) (.mark .endOfInput) a) : Ends held late R s (.error e)
  | definite {e : SyntaxError} (definite : e.isEarly = false)
      (ahead : s.ahead.kind = .endOfInput → late) : Ends held late R s (.error e)

/-- With the terminal `f` ahead the parser takes terminals that are related by `R` to what is ahead
afterwards and to the result. If it is held to it, it completes what it reads, and has no definite
error where nothing is ahead, unless `late`. -/
def Completes (held late : Prop) (f : Terminal) (p : Parser α)
    (R : List Terminal → Terminal → α → Prop) : Prop :=
  ∀ s : Input, (held → s.failure = none) → s.ahead = f → Ends held late R s (p s)

/-- A parser that is not held to anything takes what it should. -/
theorem Completes.takes (h : Completes False late f p R) : Takes f p R := by
  intro s a s' hAhead hRun
  have hEnds := h s False.elim hAhead
  rw [hRun] at hEnds
  cases hEnds with
  | @done _ _ xs taken result => exact ⟨xs, taken, result⟩

theorem completes_of_takes (hFree : ¬held) (h : Takes f p R) : Completes held late f p R := by
  intro s _ hAhead
  cases hRun : p s with
  | error e => exact .free hFree
  | ok q =>
    obtain ⟨xs, taken, result⟩ := h s q.1 q.2 hAhead hRun
    exact .done taken result

/-! ## Results -/

theorem completes_pure {a : α} (h : R [] f a) : Completes held late f (pure a) R :=
  fun s _ hAhead => .done (.refl s) (hAhead ▸ h)

theorem completes_mono {R' : List Terminal → Terminal → α → Prop} (h : Completes held late f p R)
    (hImp : ∀ xs n a, R xs n a → R' xs n a) : Completes held late f p R' := by
  intro s hFailure hAhead
  have hEnds := h s hFailure hAhead
  generalize p s = r at hEnds ⊢
  cases hEnds with
  | done taken result => exact .done taken (hImp _ _ _ result)
  | free free => exact .free free
  | early early written completed => exact .early early written (hImp _ _ _ completed)
  | definite definite ahead => exact .definite definite ahead

/-- The terminal ahead is the first one of the row, or else the one ahead afterwards. -/
theorem completes_first (hf : held → f.kind ≠ .endOfInput) (h : Completes held late f p R) :
    Completes held late f p fun xs n a => R xs n a ∧ f = first xs n := by
  intro s hFailure hAhead
  have hEnds := h s hFailure hAhead
  generalize p s = r at hEnds ⊢
  cases hEnds with
  | done taken result => exact .done taken ⟨result, hAhead ▸ Input.ahead_eq taken.terminals⟩
  | free free => exact .free free
  | early early written completed =>
    by_cases hHeld : held
    · refine .early early written ⟨completed, ?_⟩
      obtain ⟨-, -, -, -, hTerminals⟩ := Input.exists_of_ahead (hAhead ▸ hf hHeld)
      rw [hTerminals]
      exact hAhead.symm
    · exact .free hHeld
  | definite definite ahead => exact .definite definite ahead

/-- What comes after the terminals taken before. -/
theorem Ends.after {late' : Prop} {s s₁ : Input} {xs : List Terminal}
    {r : Except SyntaxError (β × Input)} (taken : s.Leads xs s₁)
    (h : Ends held late' (fun ys m b => S (xs ++ ys) m b) s₁ r)
    (hLate : s.ahead.kind = .endOfInput → late' → late) : Ends held late S s r := by
  cases h with
  | done taken' result => exact .done (taken.trans taken') result
  | free free => exact .free free
  | @early _ ys b early written completed =>
    refine .early (a := b) early written ?_
    rw [taken.terminals, List.append_assoc]
    exact completed
  | definite definite ahead =>
    exact .definite definite fun hEnd => hLate hEnd (ahead (taken.ahead_end hEnd))

/-- One part after another. Where the first one stops early, the rest is run with nothing ahead. -/
theorem completes_bind (hp : Completes held False f p R)
    (hNext : ∀ a xs n, R xs n a → Completes held False n (g a) fun ys m b => S (xs ++ ys) m b) :
    Completes held late f (p >>= g) S := by
  intro s hFailure hAhead
  have hFirst := hp s hFailure hAhead
  cases hRun : p s with
  | ok q =>
    obtain ⟨a, s₁⟩ := q
    rw [hRun] at hFirst
    rw [bind_ok hRun]
    cases hFirst with
    | @done _ _ xs taken result =>
      have hClean : held → s₁.failure = none := fun hHeld => taken.failure.trans (hFailure hHeld)
      exact (hNext a xs _ result s₁ hClean rfl).after taken fun _ => False.elim
  | error e =>
    rw [hRun] at hFirst
    rw [bind_error hRun]
    cases hFirst with
    | free free => exact .free free
    | @early _ ys a early written completed =>
      let s₀ : Input := ⟨[], none, none, 0⟩
      have hLater := hNext a _ _ completed s₀ (fun _ => rfl) rfl
      generalize g a s₀ = r at hLater
      cases hLater with
      | @done b s' zs taken result =>
        have hNil : zs = [] ∧ s'.terminals = [] := by
          have hAll : [] = zs ++ s'.terminals := taken.terminals
          exact List.append_eq_nil_iff.mp hAll.symm
        rw [hNil.1, List.append_nil] at result
        rw [Input.ahead, hNil.2] at result
        exact .early early written result
      | free free => exact .free free
      | @early _ zs b _ written' completed' =>
        refine .early (a := b) early (List.forall_mem_append.mpr ⟨written, written'⟩) ?_
        rw [← List.append_assoc]
        exact completed'
      | definite _ ahead => exact (ahead rfl).elim
    | definite definite ahead => exact .definite definite fun hEnd => (ahead hEnd).elim

theorem completes_map {k : α → β} (h : Completes held False f p fun xs n a => S xs n (k a)) :
    Completes held late f (k <$> p) S := by
  rw [map_eq_pure_bind]
  exact completes_bind h fun a xs n hS => completes_pure (by rwa [List.append_nil])

theorem completes_ite {c : Prop} [Decidable c] {q : Parser α} (hp : c → Completes held late f p R)
    (hq : ¬c → Completes held late f q R) : Completes held late f (if c then p else q) R := by
  split
  · exact hp ‹_›
  · exact hq ‹_›

/-! ## Errors -/

variable {t : Token} {kind : TokenKind} {wanted : String} {cause : ParseCause}

theorem isEarly_failAt (t : Token) (cause : ParseCause) :
    (SyntaxError.parse ⟨cause, t.describe, t.pos⟩).isEarly = decide (t.kind = .endOfInput) := by
  by_cases hKind : t.kind = .endOfInput
  · simp [SyntaxError.isEarly, Token.describe, hKind]
  · simp [SyntaxError.isEarly, Token.describe_ne hKind, hKind]

/-- An error at the token ahead, which is early only if something completes the row. -/
theorem completes_wanted (ht : t.terminal = f)
    (h : held → f.kind = .endOfInput →
      ∃ ys a, (∀ y ∈ ys, y.Written) ∧ R ys (.mark .endOfInput) a) :
    Completes held late f (failAt t cause) R := by
  intro s _ hAhead
  have hEarly := isEarly_failAt t cause
  rw [← Token.kind_terminal, ht] at hEarly
  by_cases hHeld : held
  case neg => exact .free hHeld
  by_cases hKind : f.kind = .endOfInput
  · obtain ⟨ys, a, hWritten, hR⟩ := h hHeld hKind
    rw [decide_eq_true hKind] at hEarly
    refine .early hEarly hWritten (a := a) ?_
    rw [Input.terminals_eq_nil (hAhead ▸ hKind)]
    exact hR
  · rw [decide_eq_false hKind] at hEarly
    exact .definite hEarly fun hEnd => absurd (hAhead ▸ hEnd) hKind

/-- An error at a token that has been taken. -/
theorem completes_refused (h : t.kind ≠ .endOfInput) :
    Completes held True f (failAt t cause) R := by
  intro s _ _
  have hEarly := isEarly_failAt t cause
  rw [decide_eq_false h] at hEarly
  exact .definite hEarly fun _ => trivial

/-! ## Tokens -/

theorem total_peek {s : Input} (hFailure : s.failure = none) : ∃ t, peek s = .ok (t, s) := by
  unfold peek
  rw [hFailure]
  cases s.rest with
  | nil => exact ⟨_, rfl⟩
  | cons t rest => exact ⟨t, rfl⟩

theorem completes_peek_bind {g : Token → Parser β}
    (h : ∀ t, t.terminal = f → Completes held late f (g t) S) :
    Completes held late f (peek >>= g) S := by
  intro s hFailure hAhead
  cases hPeek : peek s with
  | error e =>
    rw [bind_error hPeek]
    refine .free fun hHeld => ?_
    obtain ⟨t, hSome⟩ := total_peek (hFailure hHeld)
    rw [hSome] at hPeek
    cases hPeek
  | ok q =>
    obtain ⟨t, s'⟩ := q
    obtain ⟨-, -, -, -, hTerminal⟩ := takes_peek s t s' hAhead hPeek
    obtain rfl := peek_stays hPeek
    rw [bind_ok hPeek]
    exact h t hTerminal s' hFailure hAhead

/-- Behind a token the rest may be late. -/
theorem completes_advance_bind {g : Token → Parser β} (hf : f.kind ≠ .endOfInput)
    (h : ∀ t n, t.terminal = f → Completes held True n (g t) fun ys m b => S (f :: ys) m b) :
    Completes held late f (advance >>= g) S := by
  intro s hFailure hAhead
  obtain ⟨t, hRest, hKind, -⟩ := Input.exists_of_ahead (hAhead ▸ hf)
  have hRun := advance_cons hRest hKind
  obtain ⟨xs, taken, rfl, hTerminal⟩ := takes_advance hf s t _ hAhead hRun
  rw [bind_ok hRun]
  have hLater := h t _ hTerminal { s with rest := s.rest.tail, last := some t } hFailure rfl
  exact hLater.after taken fun hEnd => absurd (hAhead ▸ hEnd) hf

/-- A token that says no more than its kind, and that is missing if nothing is ahead. -/
theorem completes_expect_bind {g : Token → Parser β} (hMark : isMark kind = true)
    (h : (f = .mark kind ∨ (held ∧ f.kind = .endOfInput)) →
      ∀ t n, Completes held False n (g t) fun ys m b => S (.mark kind :: ys) m b) :
    Completes held late f (expect kind wanted >>= g) S := by
  have hExpect : Completes held False f (expect kind wanted) fun xs _ _ =>
      xs = [.mark kind] ∧ (f = .mark kind ∨ (held ∧ f.kind = .endOfInput)) := by
    refine completes_peek_bind fun t ht => completes_ite (fun hKind => ?_) fun hKind => ?_
    · have hf : f = .mark kind := Terminal.eq_mark hMark (by rw [← ht, Token.kind_terminal, hKind])
      subst hf
      rw [← bind_pure advance]
      exact completes_advance_bind (Terminal.ne_end_of_isMark hMark) fun t n _ =>
        completes_pure ⟨rfl, .inl rfl⟩
    · refine completes_wanted ht fun hHeld hEnd => ?_
      exact ⟨[.mark kind], ⟨kind, kind.text, .first, none⟩,
        List.forall_mem_singleton.mpr (Terminal.written_mark hMark), rfl, .inr ⟨hHeld, hEnd⟩⟩
  refine completes_bind hExpect fun t xs n ht => ?_
  obtain ⟨rfl, hf⟩ := ht
  exact h hf t n

theorem completes_check_bind {g : Bool → Parser β}
    (h : ∀ b, (b = true ↔ f.kind = kind) → Completes held late f (g b) S) :
    Completes held late f (check kind >>= g) S := by
  unfold check
  rw [bind_assoc]
  refine completes_peek_bind fun t ht => ?_
  rw [pure_bind]
  refine h _ ?_
  rw [← ht, Token.kind_terminal, decide_eq_true_iff]

theorem completes_accept_bind {g : Bool → Parser β} (hMark : isMark kind = true)
    (hYes : f = .mark kind → ∀ n,
      Completes held True n (g true) fun ys m b => S (.mark kind :: ys) m b)
    (hNo : f.kind ≠ kind → Completes held late f (g false) S) :
    Completes held late f (accept kind >>= g) S := by
  unfold accept
  rw [bind_assoc]
  refine completes_check_bind fun b hb => ?_
  cases b with
  | true =>
    have hf : f = .mark kind := Terminal.eq_mark hMark (hb.mp rfl)
    have hEnd : f.kind ≠ .endOfInput := by
      rw [hf]
      exact Terminal.ne_end_of_isMark hMark
    rw [if_pos rfl, bind_assoc]
    refine completes_advance_bind hEnd fun t n _ => ?_
    rw [pure_bind, hf]
    exact hYes hf n
  | false =>
    rw [if_neg Bool.false_ne_true, pure_bind]
    exact hNo fun hKind => Bool.false_ne_true (hb.mpr hKind)

theorem completes_acceptAs {wanted : TokenKind → Option β} (hEnd : wanted .endOfInput = none) :
    Completes held late f (acceptAs wanted) fun xs n b =>
      b = wanted f.kind ∧ xs = (if b.isSome then [f] else []) ∧ (b = none → n = f) := by
  refine completes_peek_bind fun t ht => ?_
  have hKind : t.kind = f.kind := by rw [← ht, Token.kind_terminal]
  rw [hKind]
  split
  · next b hb =>
    have hNot : f.kind ≠ .endOfInput := by
      intro hf
      rw [hf, hEnd] at hb
      cases hb
    exact completes_advance_bind hNot fun t n _ => completes_pure ⟨hb.symm, rfl, nofun⟩
  · next hb => exact completes_pure ⟨hb.symm, rfl, fun _ => rfl⟩

theorem completes_atClose_bind {g : Bool → Parser β}
    (h : ∀ b, (b = true ↔ f.kind = .rightBrace ∨ f.kind = .endOfInput) →
      Completes held late f (g b) S) :
    Completes held late f (atClose >>= g) S := by
  unfold atClose
  rw [bind_assoc]
  refine completes_peek_bind fun t ht => ?_
  rw [pure_bind]
  refine h _ ?_
  rw [← ht, Token.kind_terminal, Bool.or_eq_true, decide_eq_true_iff, decide_eq_true_iff]

theorem completes_spanFrom_bind {g : Option Span → Parser β}
    (h : ∀ v, Completes held late f (g v) S) : Completes held late f (spanFrom t >>= g) S :=
  fun s hFailure hAhead => h _ s hFailure hAhead

/-! ## Names -/

/-- A name is taken if one is ahead; otherwise it is missing or something else stands there. -/
theorem ident_cases {s : Input} (hFailure : s.failure = none) :
    (∃ id s₁ t, ident wanted s = .ok (id, s₁) ∧ s.Leads [.name id.name] s₁ ∧ s₁.last = some t ∧
        t.kind = .identifier) ∨
      ∃ e, ident wanted s = .error e ∧ e.isEarly = decide (s.ahead.kind = .endOfInput) := by
  obtain ⟨t, hPeek⟩ := total_peek hFailure
  obtain ⟨xs, -, -, -, hTerminal⟩ := takes_peek s t s rfl hPeek
  by_cases hKind : t.kind = .identifier
  · have hAhead : s.ahead.kind ≠ .endOfInput := by
      rw [← hTerminal, Token.kind_terminal, hKind]
      decide
    obtain ⟨u, hRest, hu, hSame, -⟩ := Input.exists_of_ahead hAhead
    have hRun : expect .identifier wanted s = advance s := by
      rw [expect, bind_ok hPeek, if_pos hKind]
    rw [advance_cons hRest hu] at hRun
    have hIdent : ident wanted s = .ok (⟨u.lexeme, some ⟨u.pos, u.stop⟩⟩,
        { s with rest := s.rest.tail, last := some u }) := by
      rw [ident, bind_ok hRun]
      rfl
    obtain ⟨xs, hTaken, hxs, -⟩ := takes_advance hAhead s u _ rfl (advance_cons hRest hu)
    have hu' : u.kind = .identifier := by
      rw [← Token.kind_terminal, hSame, ← hTerminal, Token.kind_terminal, hKind]
    rw [hxs, ← hSame, Token.terminal_name hu'] at hTaken
    exact .inl ⟨_, _, u, hIdent, hTaken, rfl, hu'⟩
  · refine .inr ⟨.parse ⟨.unexpected wanted, t.describe, t.pos⟩, ?_, ?_⟩
    · rw [ident, bind_error]
      rw [expect, bind_ok hPeek, if_neg hKind]
      rfl
    · rw [isEarly_failAt, ← hTerminal, Token.kind_terminal]

theorem completes_ident_bind {g : Ident → Parser β}
    (h : ∀ id n, Completes held False n (g id) fun ys m b => S (.name id.name :: ys) m b) :
    Completes held late f (ident wanted >>= g) S := by
  have hIdent : Completes held False f (ident wanted) fun xs _ id => xs = [.name id.name] := by
    by_cases hHeld : held
    case neg =>
      rw [← bind_pure (ident wanted)]
      exact completes_of_takes hHeld (takes_ident_bind fun id n _ => takes_pure rfl)
    intro s hFailure hAhead
    rcases ident_cases (hFailure hHeld) with ⟨id, s₁, -, hRun, hTaken, -⟩ | ⟨e, hRun, hEarly⟩
    · rw [hRun]
      exact .done hTaken rfl
    · rw [hRun]
      by_cases hEnd : s.ahead.kind = .endOfInput
      · obtain ⟨w, -, hWritten⟩ := Terminal.exists_name []
        refine .early (a := ⟨w, none⟩) (by simp [hEarly, hEnd])
          (List.forall_mem_singleton.mpr hWritten) ?_
        rw [Input.terminals_eq_nil hEnd]
        rfl
      · exact .definite (by simp [hEarly, hEnd]) fun h => absurd h hEnd
  refine completes_bind hIdent fun id xs n hxs => ?_
  rw [hxs]
  exact h id n

/-- A name that is refused under some condition. There is a name that is not. -/
theorem completes_fresh {c : Ident → Prop} [DecidablePred c] {cause : Ident → ParseCause}
    {k : Ident → β} (hFree : ∃ w, (Terminal.name w).Written ∧ ¬c ⟨w, none⟩)
    (h : ∀ id n, ¬c id → S [.name id.name] n (k id)) :
    Completes held late f (do
      let id ← ident wanted
      if c id then failAt (← previous) (cause id) else pure (k id)) S := by
  by_cases hHeld : held
  case neg =>
    refine completes_of_takes hHeld (takes_ident_bind fun id n _ => takes_ite (fun _ => ?_) ?_)
    · exact takes_previous_bind fun _ _ => ⟨_, rfl⟩
    · exact fun hc => takes_pure (h id n hc)
  intro s hFailure hAhead
  rcases ident_cases (hFailure hHeld) with
    ⟨id, s₁, t, hRun, hTaken, hLast, hKind⟩ | ⟨e, hRun, hEarly⟩
  · have hSome : s.ahead.kind ≠ .endOfInput := by
      rw [Input.ahead, hTaken.terminals]
      intro hEnd
      cases hEnd
    rw [bind_ok hRun]
    split
    · have hGet : (get : Parser Input) s₁ = .ok (s₁, s₁) := rfl
      have hPrevious : previous s₁ = .ok (t, s₁) := by
        rw [previous, bind_ok hGet, hLast]
        rfl
      rw [bind_ok hPrevious]
      refine .definite ?_ fun hEnd => absurd hEnd hSome
      rw [isEarly_failAt, hKind]
      rfl
    · next hc => exact .done hTaken (h id _ hc)
  · rw [bind_error hRun]
    by_cases hEnd : s.ahead.kind = .endOfInput
    · obtain ⟨w, hWritten, hw⟩ := hFree
      refine .early (a := k ⟨w, none⟩) (by simp [hEarly, hEnd])
        (List.forall_mem_singleton.mpr hWritten) ?_
      rw [Input.terminals_eq_nil hEnd]
      exact h ⟨w, none⟩ _ hw
    · exact .definite (by simp [hEarly, hEnd]) fun h => absurd h hEnd

/-! ## Repetition -/

theorem completes_chainUpTo {more : Parser (Option β)} {step : α → β → Parser α}
    {I : List Terminal → Terminal → α → Prop}
    (hRound : ∀ xs f a, I xs f a → Completes held False f more fun ys n b =>
      (b = none → ys = [] ∧ n = f) ∧
      ∀ b', b = some b' → Completes held False n (step a b') fun zs m c => I (xs ++ (ys ++ zs)) m c)
    (fuel : Nat) (xs : List Terminal) (f : Terminal) (a : α) (ha : I xs f a) :
    Completes held False f (chainUpTo more step fuel a) fun ys m b => I (xs ++ ys) m b := by
  induction fuel generalizing xs f a with
  | zero => exact completes_pure (by rwa [List.append_nil])
  | succ fuel ih =>
    refine completes_bind (hRound xs f a ha) fun b ys n hb => ?_
    cases b with
    | none =>
      obtain ⟨rfl, rfl⟩ := hb.1 rfl
      exact completes_pure (by simpa using ha)
    | some b =>
      refine completes_bind (hb.2 b rfl) fun c zs m hc => ?_
      refine completes_mono (ih _ m c hc) fun ws k d hd => ?_
      simpa using hd

theorem completes_chain {more : Parser (Option β)} {step : α → β → Parser α}
    {I : List Terminal → Terminal → α → Prop}
    (hRound : ∀ xs f a, I xs f a → Completes held False f more fun ys n b =>
      (b = none → ys = [] ∧ n = f) ∧
      ∀ b', b = some b' → Completes held False n (step a b') fun zs m c => I (xs ++ (ys ++ zs)) m c)
    {a : α} (ha : I [] f a) : Completes held False f (chain more step a) I := by
  intro s hFailure hAhead
  exact completes_chainUpTo hRound (s.size + 1) [] f a ha s hFailure hAhead

end Parser

end Tern
