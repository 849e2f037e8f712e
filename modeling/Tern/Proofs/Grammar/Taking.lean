import Tern.Grammar.Statement
import Tern.Proofs.Token.Terminal

/-!
# What parsers take

A parser that succeeds has taken a row of terminals from those ahead. `Parser.Takes` relates that
row, the terminal after it and the result. The lemmas follow the ways in which parsers are put
together: what the parts take is put in a row.

* `Input.Leads`: an input after some terminals have been taken;
* `Parser.Takes`: what is taken, given the terminal ahead;
* `Parser.takes_chain`: a repetition keeps what each round keeps.
-/

namespace Tern

open Terminal (first isMark)

namespace Input

/-- The terminals ahead, up to the first end of input. -/
def terminals (s : Input) : List Terminal := Token.terminals s.rest

/-- The second input is what the first one becomes when the terminals `xs` are taken from it. -/
structure Leads (s : Input) (xs : List Terminal) (s' : Input) : Prop where
  terminals : s.terminals = xs ++ s'.terminals
  rest : s'.rest <:+ s.rest
  failure : s'.failure = s.failure

theorem Leads.refl (s : Input) : s.Leads [] s := ⟨rfl, List.suffix_rfl, rfl⟩

theorem Leads.trans {s s₁ s₂ : Input} {xs ys : List Terminal} (h : s.Leads xs s₁)
    (h' : s₁.Leads ys s₂) : s.Leads (xs ++ ys) s₂ where
  terminals := by rw [h.terminals, h'.terminals, List.append_assoc]
  rest := h'.rest.trans h.rest
  failure := h'.failure.trans h.failure

/-- The terminal ahead. -/
def ahead (s : Input) : Terminal := first s.terminals (.mark .endOfInput)

theorem ahead_eq {s s' : Input} {xs : List Terminal} (h : s.terminals = xs ++ s'.terminals) :
    s.ahead = first xs s'.ahead := by
  rw [ahead, h, Terminal.first_append]
  rfl

theorem terminals_eq_nil {s : Input} (h : s.ahead.kind = .endOfInput) : s.terminals = [] := by
  rw [ahead] at h
  cases hTerminals : s.terminals with
  | nil => rfl
  | cons t ts =>
    rw [hTerminals] at h
    have hMem : t ∈ Token.terminals s.rest := by
      rw [← terminals, hTerminals]
      exact List.mem_cons_self
    exact absurd h (Token.kind_ne_of_mem_terminals hMem)

theorem exists_of_ahead {s : Input} (h : s.ahead.kind ≠ .endOfInput) :
    ∃ t, s.rest = t :: s.rest.tail ∧ t.kind ≠ .endOfInput ∧ t.terminal = s.ahead ∧
      s.terminals = s.ahead :: Token.terminals s.rest.tail := by
  unfold ahead terminals at *
  cases hRest : s.rest with
  | nil =>
    rw [hRest] at h
    exact absurd rfl h
  | cons t rest =>
    rw [hRest] at h
    have hKind : t.kind ≠ .endOfInput := by
      intro hKind
      rw [Token.terminals_end hKind] at h
      exact h rfl
    rw [Token.terminals_cons hKind]
    exact ⟨t, rfl, hKind, rfl, rfl⟩

end Input

namespace Parser

theorem peek_cons {s : Input} {t : Token} {rest : List Token} (h : s.rest = t :: rest) :
    peek s = .ok (t, s) := by
  unfold peek
  rw [h]

theorem advance_cons {s : Input} {t : Token} (hRest : s.rest = t :: s.rest.tail)
    (hKind : t.kind ≠ .endOfInput) :
    advance s = .ok (t, { s with rest := s.rest.tail, last := some t }) := by
  change (peek s >>= fun q => _) = _
  rw [peek_cons hRest]
  change (if t.kind = TokenKind.endOfInput then (pure t : Parser Token) else _) s = _
  rw [if_neg hKind]
  rfl

variable {α β : Type} {f : Terminal}

/-- With the terminal `f` ahead, `p` takes terminals that are related by `R` to the terminal ahead
afterwards and to the result. -/
def Takes (f : Terminal) (p : Parser α) (R : List Terminal → Terminal → α → Prop) : Prop :=
  ∀ s a s', s.ahead = f → p s = .ok (a, s') →
    ∃ xs, s.Leads xs s' ∧ R xs s'.ahead a

variable {R : List Terminal → Terminal → α → Prop} {S : List Terminal → Terminal → β → Prop}

theorem takes_pure {a : α} (h : R [] f a) : Takes f (pure a) R := by
  intro s b s' hAhead hRun
  cases hRun
  exact ⟨[], .refl s, hAhead ▸ h⟩

theorem exists_of_bind {p : Parser α} {g : α → Parser β} {s s' : Input} {b : β}
    (h : (p >>= g) s = .ok (b, s')) : ∃ a s₁, p s = .ok (a, s₁) ∧ g a s₁ = .ok (b, s') := by
  change (p s >>= fun q => g q.1 q.2) = .ok (b, s') at h
  cases hFirst : p s with
  | error e => rw [hFirst] at h; cases h
  | ok q =>
    rw [hFirst] at h
    exact ⟨q.1, q.2, rfl, h⟩

theorem takes_bind {p : Parser α} {g : α → Parser β} (hp : Takes f p R)
    (hg : ∀ a xs n, R xs n a → Takes n (g a) fun ys m b => S (xs ++ ys) m b) :
    Takes f (p >>= g) S := by
  intro s b s' hAhead hRun
  obtain ⟨a, s₁, hFirst, hThen⟩ := exists_of_bind hRun
  obtain ⟨xs, hTaken, hR⟩ := hp s a s₁ hAhead hFirst
  obtain ⟨ys, hLater, hS⟩ := hg a xs _ hR s₁ b s' rfl hThen
  exact ⟨xs ++ ys, hTaken.trans hLater, hS⟩

theorem takes_mono {p : Parser α} {R' : List Terminal → Terminal → α → Prop} (h : Takes f p R)
    (hImp : ∀ xs n a, R xs n a → R' xs n a) : Takes f p R' := by
  intro s a s' hAhead hRun
  obtain ⟨xs, hTaken, hR⟩ := h s a s' hAhead hRun
  exact ⟨xs, hTaken, hImp _ _ _ hR⟩

theorem takes_and {p : Parser α} {R' : List Terminal → Terminal → α → Prop} (h : Takes f p R)
    (h' : Takes f p R') : Takes f p fun xs n a => R xs n a ∧ R' xs n a := by
  intro s a s' hAhead hRun
  obtain ⟨xs, hTaken, hR⟩ := h s a s' hAhead hRun
  obtain ⟨xs', hTaken', hR'⟩ := h' s a s' hAhead hRun
  obtain rfl : xs = xs' :=
    List.append_cancel_right (hTaken.terminals.symm.trans hTaken'.terminals)
  exact ⟨xs, hTaken, hR, hR'⟩

theorem takes_failAt (t : Token) (cause : ParseCause) : Takes f (failAt t cause) R := by
  intro s a s' _ hRun
  cases hRun

theorem takes_ite {c : Prop} [Decidable c] {p q : Parser α} (hp : c → Takes f p R)
    (hq : ¬c → Takes f q R) : Takes f (if c then p else q) R := by
  split
  · exact hp ‹_›
  · exact hq ‹_›

/-! ## Tokens -/

theorem takes_peek : Takes f peek fun xs n t => xs = [] ∧ n = f ∧ t.terminal = f := by
  have hEnd : ∀ t : Token, t.kind = .endOfInput → t.terminal = .mark .endOfInput := by
    intro t ht
    simp [Token.terminal, ht]
  intro s t s' hAhead hRun
  unfold peek at hRun
  have hStays : s' = s ∧ t.terminal = s.ahead := by
    cases hRest : s.rest with
    | cons t' rest =>
      simp only [hRest] at hRun
      cases hRun
      refine ⟨rfl, ?_⟩
      rw [Input.ahead, Input.terminals, hRest]
      by_cases hKind : t.kind = .endOfInput
      · rw [Token.terminals_end hKind, hEnd t hKind]
        rfl
      · rw [Token.terminals_cons hKind]
        rfl
    | nil =>
      cases hFailure : s.failure with
      | some e => simp [hRest, hFailure] at hRun
      | none =>
        simp only [hRest, hFailure] at hRun
        cases hRun
        rw [Input.ahead, Input.terminals, hRest]
        exact ⟨rfl, hEnd _ rfl⟩
  obtain ⟨rfl, hTerminal⟩ := hStays
  exact ⟨[], .refl _, rfl, hAhead, hTerminal.trans hAhead⟩

theorem takes_peek_bind {g : Token → Parser β} (hg : ∀ t, t.terminal = f → Takes f (g t) S) :
    Takes f (peek >>= g) S := by
  refine takes_bind takes_peek fun t xs n ht => ?_
  obtain ⟨rfl, rfl, hTerminal⟩ := ht
  exact hg t hTerminal

theorem takes_advance (hf : f.kind ≠ .endOfInput) :
    Takes f advance fun xs _ t => xs = [f] ∧ t.terminal = f := by
  rintro s t s' rfl hRun
  obtain ⟨t', hRest, hKind, hTerminal, hTaken⟩ := Input.exists_of_ahead hf
  rw [advance_cons hRest hKind] at hRun
  cases hRun
  exact ⟨[s.ahead], ⟨hTaken, List.tail_suffix _, rfl⟩, rfl, hTerminal⟩

theorem takes_advance_bind {g : Token → Parser β} (hf : f.kind ≠ .endOfInput)
    (hg : ∀ t n, t.terminal = f → Takes n (g t) fun ys m b => S (f :: ys) m b) :
    Takes f (advance >>= g) S := by
  refine takes_bind (takes_advance hf) fun t xs n ht => ?_
  obtain ⟨rfl, hTerminal⟩ := ht
  exact hg t n hTerminal

theorem takes_expect_bind {kind : TokenKind} {wanted : String} {g : Token → Parser β}
    (hKind : kind ≠ .endOfInput)
    (hg : ∀ t n, t.kind = kind → t.terminal = f → Takes n (g t) fun ys m b => S (f :: ys) m b) :
    Takes f (expect kind wanted >>= g) S := by
  have hExpect : Takes f (expect kind wanted) fun xs _ t =>
      xs = [f] ∧ t.kind = kind ∧ t.terminal = f := by
    refine takes_peek_bind fun t ht => takes_ite (fun hSame => ?_) fun _ => takes_failAt _ _
    have hf : f.kind = kind := by rw [← ht, Token.kind_terminal, hSame]
    refine takes_mono (takes_advance (hf ▸ hKind)) fun xs n t' ht' => ?_
    exact ⟨ht'.1, by rw [← Token.kind_terminal, ht'.2, hf], ht'.2⟩
  refine takes_bind hExpect fun t xs n ht => ?_
  obtain ⟨rfl, hSame, hTerminal⟩ := ht
  exact hg t n hSame hTerminal

theorem takes_check_bind {kind : TokenKind} {g : Bool → Parser β}
    (hg : ∀ b, (b = true ↔ f.kind = kind) → Takes f (g b) S) :
    Takes f (check kind >>= g) S := by
  have hCheck : Takes f (check kind) fun xs n b =>
      xs = [] ∧ n = f ∧ (b = true ↔ f.kind = kind) := by
    refine takes_peek_bind fun t ht => takes_pure ⟨rfl, rfl, ?_⟩
    rw [← ht, Token.kind_terminal, decide_eq_true_iff]
  refine takes_bind hCheck fun b xs n hb => ?_
  obtain ⟨rfl, rfl, hb⟩ := hb
  exact hg b hb

/-- A token that may be there or not. -/
theorem takes_accept_bind {kind : TokenKind} {g : Bool → Parser β} (hMark : isMark kind = true)
    (hYes : f = .mark kind → ∀ n, Takes n (g true) fun ys m b => S (.mark kind :: ys) m b)
    (hNo : f.kind ≠ kind → Takes f (g false) S) : Takes f (accept kind >>= g) S := by
  have hAccept : Takes f (accept kind) fun xs n b =>
      (b = true ∧ xs = [f] ∧ f = .mark kind) ∨ (b = false ∧ xs = [] ∧ n = f ∧ f.kind ≠ kind) := by
    refine takes_check_bind fun b hb => takes_ite (fun hTrue => ?_) fun hFalse => ?_
    · have hf : f = .mark kind := Terminal.eq_mark hMark (hb.mp hTrue)
      have hEnd : f.kind ≠ .endOfInput := by
        rw [hf]
        exact Terminal.ne_end_of_isMark hMark
      exact takes_advance_bind hEnd fun t n _ => takes_pure (.inl ⟨rfl, rfl, hf⟩)
    · exact takes_pure (.inr ⟨rfl, rfl, rfl, fun h => hFalse (hb.mpr h)⟩)
  refine takes_bind hAccept fun b xs n hb => ?_
  rcases hb with ⟨rfl, rfl, hf⟩ | ⟨rfl, rfl, rfl, hf⟩
  · rw [hf]
    exact hYes hf n
  · exact hNo hf

theorem takes_acceptAs {wanted : TokenKind → Option β} (hEnd : wanted .endOfInput = none) :
    Takes f (acceptAs wanted) fun xs n b =>
      b = wanted f.kind ∧ xs = (if b.isSome then [f] else []) ∧ (b = none → n = f) := by
  refine takes_peek_bind fun t ht => ?_
  have hKind : t.kind = f.kind := by rw [← ht, Token.kind_terminal]
  rw [hKind]
  split
  · next b hb =>
    have hNot : f.kind ≠ .endOfInput := by
      intro hf
      rw [hf, hEnd] at hb
      cases hb
    exact takes_advance_bind hNot fun t n _ => takes_pure ⟨hb.symm, rfl, nofun⟩
  · next hb => exact takes_pure ⟨hb.symm, rfl, fun _ => rfl⟩

theorem takes_spanFrom_bind {start : Token} {g : Option Span → Parser β}
    (hg : ∀ s, Takes f (g s) S) : Takes f (spanFrom start >>= g) S := by
  have hSpan : Takes f (spanFrom start) fun xs n _ => xs = [] ∧ n = f := by
    intro s a s' hAhead hRun
    cases hRun
    exact ⟨[], .refl _, rfl, hAhead⟩
  refine takes_bind hSpan fun s xs n h => ?_
  obtain ⟨rfl, rfl⟩ := h
  exact hg s

theorem takes_ident_bind {wanted : String} {g : Ident → Parser β}
    (hg : ∀ id n, f = .name id.name → Takes n (g id) fun ys m b => S (.name id.name :: ys) m b) :
    Takes f (ident wanted >>= g) S := by
  have hIdent : Takes f (ident wanted) fun xs _ id => xs = [f] ∧ f = .name id.name := by
    refine takes_expect_bind (by decide) fun t n hKind hTerminal => ?_
    refine takes_spanFrom_bind fun s => takes_pure ⟨rfl, ?_⟩
    rw [← hTerminal, Token.terminal_name hKind]
  refine takes_bind hIdent fun id xs n h => ?_
  obtain ⟨rfl, hf⟩ := h
  rw [hf]
  exact hg id n hf

/-- What fails does not take anything. -/
theorem takes_previous_bind {g : Token → Parser β}
    (hg : ∀ t s, ∃ e, g t s = .error e) : Takes f (previous >>= g) S := by
  intro s b s' _ hRun
  obtain ⟨t, s₁, -, hThen⟩ := exists_of_bind hRun
  obtain ⟨e, he⟩ := hg t s₁
  rw [he] at hThen
  cases hThen

theorem takes_atClose_bind {g : Bool → Parser β}
    (hg : ∀ b, (b = true ↔ f.kind = .rightBrace ∨ f.kind = .endOfInput) → Takes f (g b) S) :
    Takes f (atClose >>= g) S := by
  have hClose : Takes f atClose fun xs n b =>
      xs = [] ∧ n = f ∧ (b = true ↔ f.kind = .rightBrace ∨ f.kind = .endOfInput) := by
    refine takes_peek_bind fun t ht => takes_pure ⟨rfl, rfl, ?_⟩
    rw [← ht, Token.kind_terminal, Bool.or_eq_true, decide_eq_true_iff, decide_eq_true_iff]
  refine takes_bind hClose fun b xs n hb => ?_
  obtain ⟨rfl, rfl, hb⟩ := hb
  exact hg b hb

/-! ## Repetition -/

/-- What holds of what was taken before a repetition holds after it, if it lasts over a round. -/
theorem takes_chainUpTo {more : Parser (Option β)} {step : α → β → Parser α}
    {I : List Terminal → Terminal → α → Prop}
    (hRound : ∀ xs f a, I xs f a → Takes f more fun ys n b =>
      (b = none → ys = [] ∧ n = f) ∧
      ∀ b', b = some b' → Takes n (step a b') fun zs m c => I (xs ++ (ys ++ zs)) m c)
    (fuel : Nat) (xs : List Terminal) (f : Terminal) (a : α) (ha : I xs f a) :
    Takes f (chainUpTo more step fuel a) fun ys m b => I (xs ++ ys) m b := by
  induction fuel generalizing xs f a with
  | zero => exact takes_pure (by rwa [List.append_nil])
  | succ fuel ih =>
    refine takes_bind (hRound xs f a ha) fun b ys n hb => ?_
    cases b with
    | none =>
      obtain ⟨rfl, rfl⟩ := hb.1 rfl
      exact takes_pure (by simpa using ha)
    | some b =>
      refine takes_bind (hb.2 b rfl) fun c zs m hc => ?_
      refine takes_mono (ih _ m c hc) fun ws k d hd => ?_
      simpa using hd

/-- A repetition of rounds that take something stops, unless it runs out of fuel. -/
theorem stops_chainUpTo {more : Parser (Option β)} {step : α → β → Parser α}
    {stop : Terminal → Prop} (hMore : ∀ f, Takes f more fun _ n b => b = none → stop n)
    (hStep : ∀ f a b, Takes f (step a b) fun xs _ _ => xs ≠ []) (fuel : Nat) (f : Terminal)
    (a : α) : Takes f (chainUpTo more step fuel a) fun xs n _ => stop n ∨ fuel ≤ xs.length := by
  induction fuel generalizing f a with
  | zero => exact takes_pure (.inr (Nat.zero_le _))
  | succ fuel ih =>
    refine takes_bind (hMore f) fun b xs n hb => ?_
    cases b with
    | none => exact takes_pure (.inl (hb rfl))
    | some b =>
      refine takes_bind (hStep n a b) fun c ys m hys => takes_mono (ih m c) fun zs k d hd => ?_
      refine hd.imp_right fun hFuel => ?_
      have hPos := List.length_pos_iff.mpr hys
      simp only [List.length_append]
      omega

theorem takes_chain {more : Parser (Option β)} {step : α → β → Parser α}
    {I : List Terminal → Terminal → α → Prop}
    (hRound : ∀ xs f a, I xs f a → Takes f more fun ys n b =>
      (b = none → ys = [] ∧ n = f) ∧
      ∀ b', b = some b' → Takes n (step a b') fun zs m c => I (xs ++ (ys ++ zs)) m c)
    {a : α} (ha : I [] f a) : Takes f (chain more step a) I := by
  intro s b s' hAhead hRun
  exact takes_chainUpTo hRound (s.size + 1) [] f a ha s b s' hAhead hRun

end Parser

end Tern
