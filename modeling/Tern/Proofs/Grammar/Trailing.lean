import Mathlib.Data.List.Forall2
import Tern.Proofs.Grammar.Ending
import Tern.Proofs.Grammar.Soundness

/-!
# A run that stops behind another

A parser is run twice, on a row of tokens and on a row that goes on where the first one stops. If
the run on the longer row succeeds, the run on the shorter one takes the same tokens until it has
none left; then it ends or fails early. It never fails for another reason.

The two parsers need not be the same, and of the results only as much is compared as the parsers
look at: the names, and whether an expression can be assigned to.

* `Token.Like`, `Trailing`: tokens that are alike, and a row that stops where another goes on;
* `Abreast`, `Sees`: the states of two runs before the shorter row has stopped;
* `Parser.Trails`: a parser whose run trails that of another one;
* `Parser.trails_chain`: repetitions do if their rounds do.
-/

namespace Tern

/-! ## Rows -/

/-- Tokens of the same kind, and of the same name if they are names. -/
def Token.Like (t t' : Token) : Prop :=
  t'.kind = t.kind ∧ (t.kind = .identifier → t'.lexeme = t.lexeme)

theorem Token.Like.refl (t : Token) : t.Like t := ⟨rfl, fun _ => rfl⟩

theorem Token.forall_like (ts : List Token) : List.Forall₂ Token.Like ts ts :=
  List.forall₂_same.mpr fun t _ => .refl t

/-- The tokens of the first row up to its end are like the first ones of the second row. -/
inductive Trailing : List Token → List Token → Prop where
  | stop {ts us : List Token} (hEnd : ∀ t ∈ ts.head?, t.kind = .endOfInput) : Trailing ts us
  | cons {t t' : Token} {ts us : List Token} (hKind : t.kind ≠ .endOfInput) (hLike : t.Like t')
      (hRest : Trailing ts us) : Trailing (t :: ts) (t' :: us)

/-- The runs have rows ahead the first of which stops where the second one goes on. -/
structure Abreast (s u : Input) : Prop where
  rows : Trailing s.rest u.rest
  trouble : ∀ e ∈ s.failure, (SyntaxError.lex e).isEarly = true
  left_size : s.rest.length ≤ s.size
  right_size : u.rest.length ≤ u.size

/-- The runs have like tokens ahead, of which the first is not the end of input. -/
structure Sees (t t' : Token) (s u : Input) : Prop where
  abreast : Abreast s u
  left : s.rest = t :: s.rest.tail
  right : u.rest = t' :: u.rest.tail
  like : t.Like t'
  kind : t.kind ≠ .endOfInput
  tails : Trailing s.rest.tail u.rest.tail

theorem Trailing.append {ts us : List Token} (h : List.Forall₂ Token.Like ts us)
    (hKinds : ∀ t ∈ ts, t.kind ≠ .endOfInput) {tail : List Token} (more : List Token)
    (hEnd : ∀ t ∈ tail.head?, t.kind = .endOfInput) : Trailing (ts ++ tail) (us ++ more) := by
  induction h with
  | nil => exact .stop hEnd
  | cons hLike _ ih =>
    obtain ⟨hKind, hLater⟩ := List.forall_mem_cons.mp hKinds
    exact .cons hKind hLike (ih hLater)

theorem Abreast.over_or_sees {s u : Input} (h : Abreast s u) : s.Over ∨ ∃ t t', Sees t t' s u := by
  have hRows := h.rows
  generalize hLeft : s.rest = ts at hRows
  generalize hRight : u.rest = us at hRows
  cases hRows with
  | stop hEnd =>
    refine .inl ?_
    unfold Input.Over Parser.peek
    rw [hLeft]
    cases ts with
    | cons t ts => exact .inl ⟨t, rfl, hEnd t rfl⟩
    | nil =>
      cases hFailure : s.failure with
      | none => exact .inl ⟨s.missingEnd, rfl, rfl⟩
      | some e => exact .inr ⟨.lex e, rfl, h.trouble e hFailure⟩
  | @cons t t' _ _ hKind hLike hRest =>
    refine .inr ⟨t, t', h, ?_, ?_, hLike, hKind, ?_⟩
    · rw [hLeft]
      rfl
    · rw [hRight]
      rfl
    · rw [hLeft, hRight]
      exact hRest

theorem Input.Leads.length_lt {s s' : Input} {xs : List Terminal} (h : s.Leads xs s')
    (hSome : xs ≠ []) : s'.rest.length < s.rest.length := by
  refine Nat.lt_of_le_of_ne h.rest.length_le fun hLength => hSome ?_
  have hSame := h.terminals
  rw [Input.terminals, Input.terminals, h.rest.eq_of_length hLength] at hSame
  exact List.self_eq_append_left.mp hSame

namespace Parser

variable {α α' β β' γ : Type} {pre : Input → Input → Prop} {p p' : Parser α} {q q' : Parser α'}
  {R : α → α' → Prop} {S : β → β' → Prop} {Q : α → Prop} {P : β → Prop} {f : α → Parser β}
  {g : α' → Parser β'} {t t' : Token} {kind : TokenKind} {wanted wanted' : String}

/-- Where the run of `q` succeeds, the run of `p` ends with a result that is related by `R`, or ends
where nothing is ahead any more with a result as described by `Q`, or fails early. -/
def Trails (pre : Input → Input → Prop) (p : Parser α) (q : Parser α') (R : α → α' → Prop)
    (Q : α → Prop) : Prop :=
  ∀ s u, pre s u → ∀ b u', q u = .ok (b, u') →
    (∃ a s', p s = .ok (a, s') ∧ ((R a b ∧ Abreast s' u') ∨ (Q a ∧ s'.Over))) ∨
      ∃ e, p s = .error e ∧ e.isEarly = true

/-! ## Results -/

theorem trails_pure {a : α} {b : α'} (h : R a b) (hPre : ∀ s u, pre s u → Abreast s u) :
    Trails pre (pure a) (pure b) R Q := by
  intro s u hHere _ _ hRun
  cases hRun
  exact .inl ⟨a, s, rfl, .inl ⟨h, hPre s u hHere⟩⟩

/-- Nothing is said where the longer run fails. -/
theorem trails_of_fails (h : ∀ u, ∃ e, q u = .error e) : Trails pre p q R Q := by
  intro s u _ b u' hRun
  obtain ⟨e, he⟩ := h u
  rw [he] at hRun
  cases hRun

theorem trails_failAt {cause : ParseCause} : Trails pre p (failAt t cause) R Q :=
  trails_of_fails fun _ => ⟨_, rfl⟩

theorem trails_from {pre' : Input → Input → Prop} (h : Trails pre' p q R Q)
    (hPre : ∀ s u, pre s u → pre' s u) : Trails pre p q R Q := fun s u hHere =>
  h s u (hPre s u hHere)

theorem trails_mono {R' : α → α' → Prop} {Q' : α → Prop} (h : Trails pre p q R' Q')
    (hR : ∀ a b, R' a b → R a b) (hQ : ∀ a, Q' a → Q a) : Trails pre p q R Q := by
  intro s u hHere b u' hRun
  refine (h s u hHere b u' hRun).imp_left fun ⟨a, s', hShort, hEnd⟩ => ⟨a, s', hShort, ?_⟩
  exact hEnd.imp (And.imp_left (hR a b)) (And.imp_left (hQ a))

theorem trails_bind (hp : Trails pre p q R Q)
    (hNext : ∀ a b, R a b → Trails Abreast (f a) (g b) S P) (hOver : ∀ a, Q a → Rests (f a) P) :
    Trails pre (p >>= f) (q >>= g) S P := by
  intro s u hHere b u' hRun
  obtain ⟨a', u₁, hFirst, hThen⟩ := exists_of_bind hRun
  rcases hp s u hHere a' u₁ hFirst with
    ⟨a, s₁, hShort, ⟨hR, hAbreast⟩ | ⟨ha, hEnd⟩⟩ | ⟨e, he, hEarly⟩
  · rw [bind_ok hShort]
    exact hNext a a' hR s₁ u₁ hAbreast b u' hThen
  · rw [bind_ok hShort]
    exact (hOver a ha s₁ hEnd).imp_left fun ⟨c, s', hRest, hc, hOver'⟩ =>
      ⟨c, s', hRest, .inr ⟨hc, hOver'⟩⟩
  · exact .inr ⟨e, bind_error he, hEarly⟩

/-- Where the shorter run cannot end before the rows do, only what is related matters. -/
theorem trails_firm_bind (hp : Trails pre p q R fun _ => False)
    (hNext : ∀ a b, R a b → Trails Abreast (f a) (g b) S P) :
    Trails pre (p >>= f) (q >>= g) S P :=
  trails_bind hp hNext fun _ => False.elim

theorem trails_map {k : α → β} {k' : α' → β'} (h : Trails pre p q R Q)
    (hR : ∀ a b, R a b → S (k a) (k' b)) (hQ : ∀ a, Q a → P (k a)) :
    Trails pre (k <$> p) (k' <$> q) S P := by
  rw [map_eq_pure_bind, map_eq_pure_bind]
  exact trails_bind h (fun a b hab => trails_pure (hR a b hab) fun _ _ h => h) fun a ha =>
    rests_pure (hQ a ha)

theorem trails_ite {c : Prop} [Decidable c] (hp : c → Trails pre p q R Q)
    (hq : ¬c → Trails pre p' q' R Q) :
    Trails pre (if c then p else p') (if c then q else q') R Q := by
  split
  · exact hp ‹_›
  · exact hq ‹_›

/-- The rows have stopped, or there are like tokens ahead. -/
theorem trails_of_sees (hRests : Rests p Q) (h : ∀ t t', Trails (Sees t t') p q R Q) :
    Trails Abreast p q R Q := by
  intro s u hAbreast b u' hRun
  rcases hAbreast.over_or_sees with hOver | ⟨t, t', hSees⟩
  · exact (hRests s hOver).imp_left fun ⟨a, s', hShort, ha, hEnd⟩ =>
      ⟨a, s', hShort, .inr ⟨ha, hEnd⟩⟩
  · exact h t t' s u hSees b u' hRun

/-! ## Tokens -/

theorem trails_sees_peek_bind {f : Token → Parser β} {g : Token → Parser β'}
    (h : t.Like t' → t.kind ≠ .endOfInput → Trails (Sees t t') (f t) (g t') S P) :
    Trails (Sees t t') (peek >>= f) (peek >>= g) S P := by
  intro s u hSees b u' hRun
  rw [bind_ok (peek_cons hSees.right)] at hRun
  rw [bind_ok (peek_cons hSees.left)]
  exact h hSees.like hSees.kind s u hSees b u' hRun

theorem trails_peek_bind {f : Token → Parser β} {g : Token → Parser β'}
    (hRests : ∀ t, t.kind = .endOfInput → Rests (f t) P)
    (h : ∀ t t', t.Like t' → t.kind ≠ .endOfInput → Trails (Sees t t') (f t) (g t') S P) :
    Trails Abreast (peek >>= f) (peek >>= g) S P :=
  trails_of_sees (rests_peek_bind hRests) fun t t' => trails_sees_peek_bind (h t t')

theorem trails_advance_bind {f : Token → Parser β} {g : Token → Parser β'}
    (h : t.Like t' → Trails Abreast (f t) (g t') S P) :
    Trails (Sees t t') (advance >>= f) (advance >>= g) S P := by
  intro s u hSees b u' hRun
  have hKind : t'.kind ≠ .endOfInput := hSees.like.1 ▸ hSees.kind
  rw [bind_ok (advance_cons hSees.right hKind)] at hRun
  rw [bind_ok (advance_cons hSees.left hSees.kind)]
  have hNext : Abreast { s with rest := s.rest.tail, last := some t }
      { u with rest := u.rest.tail, last := some t' } :=
    ⟨hSees.tails, hSees.abreast.trouble,
      Nat.le_trans (List.tail_suffix _).length_le hSees.abreast.left_size,
      Nat.le_trans (List.tail_suffix _).length_le hSees.abreast.right_size⟩
  exact h hSees.like _ _ hNext b u' hRun

theorem trails_expect_bind {f : Token → Parser β} {g : Token → Parser β'}
    (hEnd : kind ≠ .endOfInput)
    (h : ∀ t t', t.kind = kind → t.Like t' → Trails Abreast (f t) (g t') S P) :
    Trails Abreast (expect kind wanted >>= f) (expect kind wanted' >>= g) S P := by
  refine trails_of_sees (starves_expect hEnd).bind fun t t' => ?_
  unfold expect
  rw [bind_assoc, bind_assoc]
  refine trails_sees_peek_bind fun hLike _ => ?_
  rw [hLike.1]
  by_cases hKind : t.kind = kind
  · rw [if_pos hKind, if_pos hKind]
    exact trails_advance_bind (h t t' hKind)
  · rw [if_neg hKind, if_neg hKind]
    exact trails_of_fails fun u => ⟨_, bind_error rfl⟩

theorem trails_check_bind {f : Bool → Parser β} {g : Bool → Parser β'} (hEnd : kind ≠ .endOfInput)
    (hRests : Rests (f false) P)
    (h : ∀ t t' c, (c = true ↔ t.kind = kind) → Trails (Sees t t') (f c) (g c) S P) :
    Trails Abreast (check kind >>= f) (check kind >>= g) S P := by
  refine trails_of_sees (rests_check_bind hEnd hRests) fun t t' => ?_
  unfold check
  rw [bind_assoc, bind_assoc]
  refine trails_sees_peek_bind fun hLike _ => ?_
  rw [pure_bind, pure_bind, hLike.1]
  exact h t t' _ decide_eq_true_iff

theorem trails_accept_bind {f : Bool → Parser β} {g : Bool → Parser β'} (hEnd : kind ≠ .endOfInput)
    (hRests : Rests (f false) P) (hYes : Trails Abreast (f true) (g true) S P)
    (hNo : Trails Abreast (f false) (g false) S P) :
    Trails Abreast (accept kind >>= f) (accept kind >>= g) S P := by
  unfold accept
  rw [bind_assoc, bind_assoc]
  refine trails_check_bind hEnd (by simpa using hRests) fun t t' c _ => ?_
  cases c with
  | true =>
    rw [if_pos rfl, bind_assoc, bind_assoc]
    refine trails_advance_bind fun _ => ?_
    rw [pure_bind, pure_bind]
    exact hYes
  | false =>
    rw [if_neg Bool.false_ne_true, pure_bind, pure_bind]
    exact trails_from hNo fun s u h => h.abreast

theorem trails_acceptAs {wanted : TokenKind → Option α} (hEnd : wanted .endOfInput = none) :
    Trails Abreast (acceptAs wanted) (acceptAs wanted) Eq (· = none) := by
  refine trails_peek_bind (fun t ht => ?_) fun t t' hLike _ => ?_
  · rw [ht, hEnd]
    exact rests_pure rfl
  · rw [hLike.1]
    split
    · exact trails_advance_bind fun _ => trails_pure rfl fun _ _ h => h
    · exact trails_pure rfl fun _ _ h => h.abreast

theorem trails_atClose_bind {f : Bool → Parser β} {g : Bool → Parser β'}
    (hRests : Rests (f true) P) (h : ∀ t t' c, Trails (Sees t t') (f c) (g c) S P) :
    Trails Abreast (atClose >>= f) (atClose >>= g) S P := by
  refine trails_of_sees (rests_atClose_bind hRests) fun t t' => ?_
  unfold atClose
  rw [bind_assoc, bind_assoc]
  refine trails_sees_peek_bind fun hLike _ => ?_
  rw [pure_bind, pure_bind, hLike.1]
  exact h t t' _

theorem trails_spanFrom_bind {f : Option Span → Parser β} {g : Option Span → Parser β'}
    (h : ∀ v v', Trails pre (f v) (g v') S P) :
    Trails pre (spanFrom t >>= f) (spanFrom t' >>= g) S P := fun s u hHere =>
  h _ _ s u hHere

/-- Names with the same text. -/
def SameName (id id' : Ident) : Prop := id'.name = id.name

theorem trails_ident : Trails Abreast (ident wanted) (ident wanted') SameName fun _ => False := by
  refine trails_expect_bind (by decide) fun t t' hKind hLike => trails_spanFrom_bind fun v v' => ?_
  exact trails_pure (hLike.2 hKind) fun _ _ h => h

/-! ## Repetition -/

/-- Each round of the repetition takes a token. -/
def Advances (more : Parser (Option β)) (step : α → β → Parser α) : Prop :=
  ∀ f a, Takes f more fun ys n b => ∀ b', b = some b' →
    Takes n (step a b') fun zs _ _ => ys ++ zs ≠ []

theorem Advances.length_lt {more : Parser (Option β)} {step : α → β → Parser α}
    (h : Advances more step) {s s₁ s₂ : Input} {a c : α} {b : β}
    (hMore : more s = .ok (some b, s₁)) (hStep : step a b s₁ = .ok (c, s₂)) :
    s₂.rest.length < s.rest.length := by
  obtain ⟨ys, hTaken, hRound⟩ := h _ a s _ s₁ rfl hMore
  obtain ⟨zs, hLater, hSome⟩ := hRound b rfl s₁ c s₂ rfl hStep
  exact (hTaken.trans hLater).length_lt hSome

/-- The rounds stay side by side until the shorter run has nothing ahead, and ends there. -/
theorem trails_chainUpTo {more more' : Parser (Option γ)} {step : α → γ → Parser α}
    {step' : α' → γ → Parser α'} (hMore : Trails Abreast more more' Eq (· = none))
    (hEnd : Rests more (· = none))
    (hStep : ∀ a a' b, R a a' → Trails Abreast (step a b) (step' a' b) R fun _ => True)
    (hLeft : Advances more step) (hRight : Advances more' step') (fuel fuel' : Nat) {a : α}
    {a' : α'} (ha : R a a') :
    Trails (fun s u => Abreast s u ∧ s.rest.length < fuel ∧ u.rest.length < fuel')
      (chainUpTo more step fuel a) (chainUpTo more' step' fuel' a') R fun _ => True := by
  induction fuel' generalizing fuel a a' with
  | zero => exact fun s u hHere => absurd hHere.2.2 (Nat.not_lt_zero _)
  | succ fuel' ih =>
    rintro s u ⟨hAbreast, hShort, hLong⟩ b u' hRun
    obtain ⟨fuel, rfl⟩ := Nat.exists_eq_add_one_of_ne_zero (Nat.ne_zero_of_lt hShort)
    rw [chainUpTo] at hRun ⊢
    obtain ⟨o', u₁, hMore', hThen⟩ := exists_of_bind hRun
    rcases hMore s u hAbreast o' u₁ hMore' with
      ⟨o, s₁, hMore₁, ⟨rfl, hAbreast₁⟩ | ⟨rfl, hOver₁⟩⟩ | ⟨e, he, hEarly⟩
    · rw [bind_ok hMore₁]
      cases o with
      | none =>
        cases hThen
        exact .inl ⟨a, s₁, rfl, .inl ⟨ha, hAbreast₁⟩⟩
      | some o =>
        obtain ⟨c', u₂, hStep', hLater⟩ := exists_of_bind hThen
        rcases hStep a a' o ha s₁ u₁ hAbreast₁ c' u₂ hStep' with
          ⟨c, s₂, hStep₂, ⟨hc, hAbreast₂⟩ | ⟨-, hOver₂⟩⟩ | ⟨e, he, hEarly⟩
        · have hFewer := hLeft.length_lt hMore₁ hStep₂
          have hFewer' := hRight.length_lt hMore' hStep'
          simp only
          rw [bind_ok hStep₂]
          exact ih fuel hc s₂ u₂ ⟨hAbreast₂, by omega, by omega⟩ b u' hLater
        · simp only
          rw [bind_ok hStep₂]
          exact (rests_chainUpTo hEnd fuel c s₂ hOver₂).imp_left fun ⟨d, s', hRest, _, hOver'⟩ =>
            ⟨d, s', hRest, .inr ⟨trivial, hOver'⟩⟩
        · exact .inr ⟨e, bind_error he, hEarly⟩
    · rw [bind_ok hMore₁]
      exact .inl ⟨a, s₁, rfl, .inr ⟨trivial, hOver₁⟩⟩
    · exact .inr ⟨e, bind_error he, hEarly⟩

theorem trails_chain {more more' : Parser (Option γ)} {step : α → γ → Parser α}
    {step' : α' → γ → Parser α'} (hMore : Trails Abreast more more' Eq (· = none))
    (hEnd : Rests more (· = none))
    (hStep : ∀ a a' b, R a a' → Trails Abreast (step a b) (step' a' b) R fun _ => True)
    (hLeft : Advances more step) (hRight : Advances more' step') {a : α} {a' : α'} (ha : R a a') :
    Trails Abreast (chain more step a) (chain more' step' a') R fun _ => True := by
  intro s u hAbreast
  exact trails_chainUpTo hMore hEnd hStep hLeft hRight (s.size + 1) (u.size + 1) ha s u
    ⟨hAbreast, Nat.lt_succ_of_le hAbreast.left_size, Nat.lt_succ_of_le hAbreast.right_size⟩

theorem advances_acceptAs {wanted : TokenKind → Option β} {step : α → β → Parser α}
    (hEnd : wanted .endOfInput = none)
    (hStep : ∀ f a b, Takes f (step a b) fun _ _ _ => True) : Advances (acceptAs wanted) step := by
  refine fun f a => takes_mono (takes_acceptAs hEnd) fun ys n b hb b' hSome => ?_
  subst hSome
  refine takes_mono (hStep n a b') fun zs _ _ _ => ?_
  rw [hb.2.1]
  exact List.cons_ne_nil _ _

theorem trails_untilClose {item : Parser α} {item' : Parser α'}
    {F : List Terminal → Terminal → α → Prop} {F' : List Terminal → Terminal → α' → Prop}
    (hItem : Trails Abreast item item' (fun _ _ => True) fun _ => True)
    (hLeft : ∀ f, Takes f item F) (hSome : ∀ xs n a, F xs n a → xs ≠ [])
    (hRight : ∀ f, Takes f item' F') (hSome' : ∀ xs n a, F' xs n a → xs ≠ []) :
    Trails Abreast (untilClose item) (untilClose item') (fun _ _ => True) fun _ => True := by
  have hRound : ∀ {γ : Type} {i : Parser γ} {G : List Terminal → Terminal → γ → Prop},
      (∀ f, Takes f i G) → (∀ xs n a, G xs n a → xs ≠ []) →
      Advances (do if ← atClose then pure none else pure (some ()))
        (fun (items : List γ) _ => do pure ((← i) :: items)) := by
    intro γ i G hTakes hNonempty f items
    refine takes_atClose_bind fun b _ => takes_ite (fun _ => takes_pure nofun) fun _ => ?_
    refine takes_pure fun _ _ => takes_bind (hTakes f) fun a xs n ha => takes_pure ?_
    simpa using hNonempty xs n a ha
  refine trails_bind (R := fun _ _ => True) (Q := fun _ => True) (trails_chain ?_ ?_ ?_
    (hRound hLeft hSome) (hRound hRight hSome') trivial) (fun _ _ _ => trails_pure trivial
    fun _ _ h => h) fun _ _ => rests_pure trivial
  · refine trails_atClose_bind (rests_pure rfl) fun t t' c => ?_
    exact trails_ite (fun _ => trails_pure rfl fun _ _ h => h.abreast) fun _ =>
      trails_pure rfl fun _ _ h => h.abreast
  · exact rests_atClose_bind (rests_pure rfl)
  · intro items items' _ _
    exact trails_bind hItem (fun _ _ _ => trails_pure trivial fun _ _ h => h) fun _ _ =>
      rests_pure trivial

theorem trails_commaSeparated {close : TokenKind} {item : List α → Parser α}
    {item' : List α' → Parser α'} (hEnd : close ≠ .endOfInput)
    (hItem : ∀ as as', List.Forall₂ R as as' → Trails Abreast (item as) (item' as') R fun _ => True)
    (hRests : Rests (item []) fun _ => True)
    (hLeft : ∀ as f, Takes f (item as) fun _ _ _ => True)
    (hRight : ∀ as f, Takes f (item' as) fun _ _ _ => True) :
    Trails Abreast (commaSeparated close item) (commaSeparated close item') (List.Forall₂ R)
      fun _ => True := by
  have hRound : ∀ {γ : Type} {i : List γ → Parser γ},
      (∀ as f, Takes f (i as) fun _ _ _ => True) →
      Advances (do if ← accept .comma then pure (some ()) else pure none)
        (fun items _ => do pure ((← i items) :: items)) := by
    intro γ i hTakes f items
    refine takes_accept_bind (by decide) (fun _ n => takes_pure fun _ _ => ?_) fun _ =>
      takes_pure nofun
    exact takes_bind (hTakes items n) fun _ _ _ _ => takes_pure (by simp)
  refine trails_check_bind hEnd ?_ fun t t' c _ => trails_from ?_ fun _ _ h => h.abreast
  · rw [if_neg Bool.false_ne_true]
    refine rests_bind hRests fun a _ => ?_
    refine rests_bind (rests_chain ?_ [a]) fun _ _ => rests_pure trivial
    exact rests_accept_bind (by decide) (rests_pure rfl)
  refine trails_ite (fun _ => trails_pure .nil fun _ _ h => h) fun _ => ?_
  refine trails_bind (hItem [] [] .nil) (fun a a' ha => ?_) fun a _ => ?_
  · refine trails_bind (R := List.Forall₂ R) (Q := fun _ => True) (trails_chain ?_ ?_ ?_
      (hRound hLeft) (hRound hRight) (.cons ha .nil)) (fun items items' hItems =>
      trails_pure (List.rel_reverse hItems) fun _ _ h => h) fun _ _ => rests_pure trivial
    · exact trails_accept_bind (by decide) (rests_pure rfl) (trails_pure rfl fun _ _ h => h)
        (trails_pure rfl fun _ _ h => h)
    · exact rests_accept_bind (by decide) (rests_pure rfl)
    · intro items items' _ hItems
      exact trails_bind (hItem _ _ hItems) (fun _ _ hb => trails_pure (.cons hb hItems)
        fun _ _ h => h) fun _ _ => rests_pure trivial
  · refine rests_bind (rests_chain ?_ [a]) fun _ _ => rests_pure trivial
    exact rests_accept_bind (by decide) (rests_pure rfl)

end Parser

end Tern
