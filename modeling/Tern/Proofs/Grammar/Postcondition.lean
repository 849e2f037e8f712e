import Tern.Grammar.Statement
import Tern.Proofs.Token.Spelling

/-!
# Postconditions of parsers

What a parser yields can be told from its parts and from what is known of the tokens: something
that holds of each token ahead and of the token last taken, as every parser leaves it.

* `Token.Lasting`: what may be known of tokens;
* `Parser.Yields`: a successful parse of such tokens yields something with a property;
* `Parser.yields_bind` and the lemmas after it follow the ways in which parsers are put together.
-/

namespace Tern

/-- The tokens ahead and the token last taken satisfy `T`. -/
structure Input.Each (T : Token → Prop) (s : Input) : Prop where
  rest : ∀ t ∈ s.rest, T t
  last : ∀ t ∈ s.last, T t

/-- What may be known of tokens: that their identifiers are names, and nothing that an end of
input after them would break. -/
class Token.Lasting (T : Token → Prop) : Prop where
  spelled : ∀ t, T t → t.Spelled
  missingEnd : ∀ s : Input, s.Each T → T s.missingEnd

instance : Token.Lasting Token.Spelled where
  spelled _ ht := ht
  missingEnd s _ := by
    intro hKind
    cases hKind

namespace Parser

variable {T : Token → Prop} {α β : Type} {P : α → Prop} {Q : β → Prop}

/-- Every successful parse of tokens with `T` yields something that satisfies `P`, and leaves such
tokens. -/
def Yields (T : Token → Prop) (p : Parser α) (P : α → Prop) : Prop :=
  ∀ s a s', s.Each T → p s = .ok (a, s') → P a ∧ s'.Each T

theorem yields_pure {a : α} (h : P a) : Yields T (pure a) P := by
  intro s b s' hs hRun
  cases hRun
  exact ⟨h, hs⟩

theorem yields_bind {p : Parser α} {f : α → Parser β} (hp : Yields T p P)
    (hf : ∀ a, P a → Yields T (f a) Q) : Yields T (p >>= f) Q := by
  intro s b s' hs hRun
  change (p s >>= fun q => f q.1 q.2) = .ok (b, s') at hRun
  cases h : p s with
  | error e => rw [h] at hRun; cases hRun
  | ok q =>
    rw [h] at hRun
    obtain ⟨hP, hs₁⟩ := hp s q.1 q.2 hs h
    exact hf q.1 hP q.2 b s' hs₁ hRun

theorem yields_mono {p : Parser α} {P' : α → Prop} (h : Yields T p P) (hPP' : ∀ a, P a → P' a) :
    Yields T p P' :=
  fun s a s' hs hRun => ⟨hPP' a (h s a s' hs hRun).1, (h s a s' hs hRun).2⟩

theorem yields_map {p : Parser α} {f : α → β} (h : Yields T p fun a => Q (f a)) :
    Yields T (f <$> p) Q := by
  rw [map_eq_pure_bind]
  exact yields_bind h fun a ha => yields_pure ha

theorem yields_failAt (t : Token) (cause : ParseCause) : Yields T (failAt t cause) P := by
  intro s a s' _ hRun
  cases hRun

theorem yields_ite {c : Prop} [Decidable c] {p q : Parser α} (hp : c → Yields T p P)
    (hq : ¬c → Yields T q P) : Yields T (if c then p else q) P := by
  split
  · exact hp ‹_›
  · exact hq ‹_›

/-! ## Tokens -/

theorem yields_get : Yields T (get : Parser Input) fun _ => True := by
  intro s a s' hs hRun
  cases hRun
  exact ⟨trivial, hs⟩

/-- A span runs from where a token starts to where a token stops. -/
theorem yields_spanFrom (start : Token) : Yields T (spanFrom start) fun span =>
    T start → ∃ u, T u ∧ span = some ⟨start.pos, u.stop⟩ := by
  intro s a s' hs hRun
  cases hRun
  refine ⟨fun hStart => ?_, hs⟩
  cases hLast : s.last with
  | none => exact ⟨start, hStart, rfl⟩
  | some u => exact ⟨u, hs.last u hLast, rfl⟩

section

variable [Token.Lasting T]

theorem yields_peek : Yields T peek T := by
  intro s t s' hs hRun
  unfold peek at hRun
  cases hRest : s.rest with
  | cons t' rest =>
    simp only [hRest] at hRun
    cases hRun
    exact ⟨hs.rest t (by rw [hRest]; exact List.mem_cons_self), hs⟩
  | nil =>
    cases hFailure : s.failure with
    | some e => simp [hRest, hFailure] at hRun
    | none =>
      simp only [hRest, hFailure] at hRun
      cases hRun
      exact ⟨Token.Lasting.missingEnd s hs, hs⟩

theorem yields_advance : Yields T advance T := by
  refine yields_bind yields_peek fun t ht => yields_ite (fun _ => yields_pure ht) fun _ => ?_
  refine yields_bind (P := fun _ => True) ?_ fun _ _ => yields_pure ht
  intro s a s' hs hRun
  cases hRun
  refine ⟨trivial, fun t ht => hs.rest t (List.mem_of_mem_tail ht), fun t' ht' => ?_⟩
  obtain rfl : t = t' := Option.some.inj ht'
  exact ht

theorem yields_check (kind : TokenKind) : Yields T (check kind) fun _ => True :=
  yields_bind yields_peek fun _ _ => yields_pure trivial

theorem yields_accept (kind : TokenKind) : Yields T (accept kind) fun _ => True :=
  yields_bind (yields_check kind) fun _ _ =>
    yields_ite (fun _ => yields_bind yields_advance fun _ _ => yields_pure trivial)
      fun _ => yields_pure trivial

theorem yields_acceptAs (wanted : TokenKind → Option β) :
    Yields T (acceptAs wanted) fun _ => True := by
  refine yields_bind yields_peek fun t _ => ?_
  split
  · exact yields_bind yields_advance fun _ _ => yields_pure trivial
  · exact yields_pure trivial

/-- Looking ahead does not move. -/
theorem peek_stays {s s' : Input} {t : Token} (h : peek s = .ok (t, s')) : s' = s := by
  unfold peek at h
  split at h <;> cases h <;> rfl

/-- The token taken is the token ahead. -/
theorem peek_of_advance {s s' : Input} {t : Token} (h : advance s = .ok (t, s')) :
    peek s = .ok (t, s) := by
  change (peek s >>= fun q => _) = .ok (t, s') at h
  cases hPeek : peek s with
  | error e => rw [hPeek] at h; cases h
  | ok q =>
    obtain ⟨t', s₁⟩ := q
    obtain rfl := peek_stays hPeek
    rw [hPeek] at h
    change (if t'.kind = TokenKind.endOfInput then (pure t' : Parser Token) else _) s₁ =
      .ok (t, s') at h
    split at h <;> cases h <;> rfl

theorem yields_expect (kind : TokenKind) (wanted : String) :
    Yields T (expect kind wanted) fun t => t.kind = kind ∧ T t := by
  have hAdvance : ∀ t, t.kind = kind → ∀ s, peek s = .ok (t, s) → ∀ t' s', s.Each T →
      advance s = .ok (t', s') → (t'.kind = kind ∧ T t') ∧ s'.Each T := by
    intro t ht s hPeek t' s' hs hRun
    obtain ⟨ht', hs'⟩ := yields_advance s t' s' hs hRun
    have hSame := peek_of_advance hRun
    rw [hPeek] at hSame
    cases hSame
    exact ⟨⟨ht, ht'⟩, hs'⟩
  intro s t s' hs hRun
  change (peek s >>= fun q => _) = .ok (t, s') at hRun
  cases h : peek s with
  | error e => rw [h] at hRun; cases hRun
  | ok q =>
    obtain ⟨t₁, s₁⟩ := q
    obtain rfl := peek_stays h
    rw [h] at hRun
    change (if t₁.kind = kind then advance else failAt t₁ _) s₁ = .ok (t, s') at hRun
    split at hRun
    · exact hAdvance t₁ ‹_› s₁ h t s' hs hRun
    · cases hRun

theorem yields_previous : Yields T previous fun _ => True := by
  refine yields_bind yields_get fun s _ => ?_
  split
  · exact yields_pure trivial
  · exact yields_mono yields_peek fun _ _ => trivial

theorem yields_atClose : Yields T atClose fun _ => True :=
  yields_bind yields_peek fun _ _ => yields_pure trivial

/-- An identifier is the text of an identifier token. -/
theorem yields_ident (wanted : String) : Yields T (ident wanted) fun id =>
    ∃ t u, t.kind = .identifier ∧ T t ∧ T u ∧ id = ⟨t.lexeme, some ⟨t.pos, u.stop⟩⟩ := by
  refine yields_bind (yields_expect .identifier wanted) fun t ht => ?_
  refine yields_bind (yields_spanFrom t) fun span hSpan => yields_pure ?_
  obtain ⟨u, hu, rfl⟩ := hSpan ht.2
  exact ⟨t, u, ht.1, ht.2, hu, rfl⟩

end

/-! ## Repetition -/

theorem yields_chainUpTo {more : Parser (Option β)} {step : α → β → Parser α}
    (hMore : Yields T more fun _ => True) (hStep : ∀ a b, P a → Yields T (step a b) P) :
    ∀ (fuel : Nat) (a : α), P a → Yields T (chainUpTo more step fuel a) P
  | 0, _, ha => yields_pure ha
  | fuel + 1, a, ha => by
    refine yields_bind hMore fun b _ => ?_
    cases b with
    | none => exact yields_pure ha
    | some b =>
      exact yields_bind (hStep a b ha) fun a' ha' => yields_chainUpTo hMore hStep fuel a' ha'

theorem yields_chain {more : Parser (Option β)} {step : α → β → Parser α}
    (hMore : Yields T more fun _ => True) (hStep : ∀ a b, P a → Yields T (step a b) P) {a : α}
    (ha : P a) : Yields T (chain more step a) P :=
  yields_bind yields_get fun _ _ => yields_chainUpTo hMore hStep _ a ha

/-- Items gathered in front of one another, each told the items before. -/
theorem yields_gather {more : Parser (Option β)} {item : List α → Parser α}
    {L : List α → Prop} (hMore : Yields T more fun _ => True)
    (hItem : ∀ before, L before → Yields T (item before) fun a => L (a :: before))
    {first : List α} (hFirst : L first) :
    Yields T (chain more (fun items _ => do pure ((← item items) :: items)) first) L :=
  yields_chain hMore
    (fun items _ hItems => yields_bind (hItem items hItems) fun _ ha => yields_pure ha) hFirst

variable [Token.Lasting T]

theorem yields_untilClose {item : Parser α} (hItem : Yields T item P) :
    Yields T (untilClose item) fun items => ∀ a ∈ items, P a := by
  have hMore : Yields T (do if ← atClose then pure none else pure (some ()) : Parser (Option Unit))
      fun _ => True :=
    yields_bind yields_atClose fun _ _ =>
      yields_ite (fun _ => yields_pure trivial) fun _ => yields_pure trivial
  refine yields_bind (yields_gather (L := fun items => ∀ a ∈ items, P a) hMore ?_ (by simp)) ?_
  · intro before hBefore
    exact yields_mono hItem fun a ha => List.forall_mem_cons.mpr ⟨ha, hBefore⟩
  · intro items hItems
    exact yields_pure fun a ha => hItems a (List.mem_reverse.mp ha)

/-- Items with commas between them, where each is read knowing those before it. -/
theorem yields_commaSeparated {close : TokenKind} {item : List α → Parser α}
    {L : List α → Prop} (hNil : L [])
    (hItem : ∀ before, L before → Yields T (item before) fun a => L (a :: before)) :
    Yields T (commaSeparated close item) fun items => L items.reverse := by
  have hMore : Yields T (do if ← accept .comma then pure (some ()) else pure none :
      Parser (Option Unit)) fun _ => True :=
    yields_bind (yields_accept .comma) fun _ _ =>
      yields_ite (fun _ => yields_pure trivial) fun _ => yields_pure trivial
  refine yields_bind (yields_check close) fun _ _ =>
    yields_ite (fun _ => yields_pure hNil) fun _ => ?_
  refine yields_bind (hItem [] hNil) fun first hFirst => ?_
  refine yields_bind (yields_gather hMore hItem hFirst) fun items hItems => yields_pure ?_
  rwa [List.reverse_reverse]

end Parser

end Tern
