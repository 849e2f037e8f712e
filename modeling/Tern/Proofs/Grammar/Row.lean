import Tern.Proofs.Grammar.Soundness
import Tern.Proofs.Syntax.Tree

/-!
# The row of a node

What a parser makes of tokens it draws from a row of them: a node starts where the first token of
its row stands and stops where the last one does, its row spells it, and its children are drawn from
parts of the row, one behind the other. The row of an expression in parentheses is what is inside of
them, and the row of a statement ends before the semicolon.

* `Node.DrawnFrom`: a node that is drawn from a row, as is everything in it;
* `Node.DrawnFrom.all_rows`: each node of a tree has a row, which is part of the row of the tree;
* `Parser.Draws`: what a parser does with the row of tokens that it has taken;
* `Parser.draws_chain` and the lemmas before it follow the ways in which parsers are put together.
-/

namespace Tern

/-- From where the first token of a row stands to where the last one stops. -/
def Token.rowSpan (row : List Token) : Option Span :=
  match row.head?, row.getLast? with
  | some t, some u => some ⟨t.pos, u.stop⟩
  | _, _ => none

namespace Node

/-- The terminals of the row spell the node. A statement is spelled without its semicolon, and a
program is no part of anything. -/
def SpelledBy (row : List Token) : Node → Prop
  | .program _ => False
  | .stmt s =>
    (∃ room ctx,
      (forms room).declaration ctx (row.map Token.terminal) (.mark .rightBrace) s) ∧
      ∀ t ∈ row.getLast?, t.kind ≠ .semicolon
  | .elif e => ∃ room ctx, Form.Arm (forms room) ctx (row.map Token.terminal) e
  | .expr e => ∃ room ctx, (forms room).expression ctx (row.map Token.terminal) e

/-- Nodes in parts of a row, one behind the other. -/
inductive Spread (P : Node → List Token → Prop) : List Token → List Node → Prop where
  | done {row : List Token} : Spread P row []
  | next {gap row rest : List Token} {n : Node} {ns : List Node} (hHere : P n row)
      (hLater : Spread P rest ns) : Spread P (gap ++ (row ++ rest)) (n :: ns)

/-- The node is drawn from a row that spells it, and its children from parts of that row. -/
inductive DrawnFrom : Node → List Token → Prop where
  | mk {n : Node} {row : List Token} (hWords : ∀ t ∈ row, t.kind ≠ .endOfInput)
      (hSpelled : n.SpelledBy row) (hSpan : n.span = Token.rowSpan row)
      (hParts : Spread DrawnFrom row n.children) : DrawnFrom n row

variable {P : Node → List Token → Prop} {row rest xs ys : List Token} {n : Node}
  {ns ms : List Node}

namespace Spread

theorem after (gap : List Token) (h : Spread P row ns) : Spread P (gap ++ row) ns := by
  cases h with
  | done => exact .done
  | @next gap' row rest n ns hHere hLater =>
    rw [← List.append_assoc]
    exact .next hHere hLater

theorem append (h : Spread P xs ns) (h' : Spread P ys ms) : Spread P (xs ++ ys) (ns ++ ms) := by
  induction h with
  | done => exact h'.after _
  | next hHere _ ih =>
    rw [List.append_assoc, List.append_assoc]
    exact .next hHere ih

theorem one (h : P n row) : Spread P row [n] := by
  have hOne : Spread P ([] ++ (row ++ [])) [n] := .next h .done
  simpa using hOne

/-- More tokens behind the nodes. -/
theorem before (h : Spread P row ns) (rest : List Token) : Spread P (row ++ rest) ns := by
  have hNone : Spread P rest [] := .done
  simpa using h.append hNone

theorem exists_part (h : Spread P row ns) (hn : n ∈ ns) : ∃ part, part <:+: row ∧ P n part := by
  induction h with
  | done => cases hn
  | @next gap row rest m ms hHere _ ih =>
    rcases List.mem_cons.mp hn with rfl | hn
    · exact ⟨row, by simp, hHere⟩
    · obtain ⟨part, hPart, hThere⟩ := ih hn
      have hSuffix : rest <:+ gap ++ (row ++ rest) := ⟨gap ++ row, by rw [List.append_assoc]⟩
      exact ⟨part, hPart.trans hSuffix.isInfix, hThere⟩

end Spread

namespace DrawnFrom

/-- What is shown of a node from its parts holds of all that is drawn from rows. -/
theorem induct {M : Node → List Token → Prop}
    (hStep : ∀ n row, n.DrawnFrom row → Spread M row n.children → M n row)
    (h : n.DrawnFrom row) : M n row :=
  @DrawnFrom.rec (fun n row _ => M n row) (fun row ns _ => Spread M row ns)
    (fun hWords hSpelled hSpan hParts ih => hStep _ _ (.mk hWords hSpelled hSpan hParts) ih)
    .done (fun _ _ ih ihLater => .next ih ihLater) n row h

/-- Every node of the tree has a row, which is part of the tokens in which the tree has its row. -/
theorem all_rows {tokens : List Token} (h : n.DrawnFrom row) (hPart : row <:+: tokens) :
    n.All fun m => ∃ part, part <:+: tokens ∧ m.DrawnFrom part := by
  refine induct (M := fun n row => row <:+: tokens →
    n.All fun m => ∃ part, part <:+: tokens ∧ m.DrawnFrom part) ?_ h hPart
  intro n row hNode hParts hPart
  refine .mk ⟨row, hPart, hNode⟩ fun c hc => ?_
  obtain ⟨part, hSmaller, hChild⟩ := hParts.exists_part hc
  exact hChild (hSmaller.trans hPart)

end DrawnFrom

end Node

/-! ## Taking a row -/

namespace Input

/-- The second input is what the first one becomes when the row is taken from it. -/
structure Gives (s : Input) (row : List Token) (s' : Input) : Prop where
  rest : s.rest = row ++ s'.rest
  words : ∀ t ∈ row, t.kind ≠ .endOfInput
  last : s'.last = row.getLast?.or s.last

/-- The row is made of tokens that can be taken, and ends with the one last taken. -/
structure Took (s : Input) (row : List Token) : Prop where
  words : ∀ t ∈ row, t.kind ≠ .endOfInput
  last : ∀ t, row.getLast? = some t → s.last = some t

variable {s s₁ s₂ : Input} {taken row : List Token}

theorem took_nil (s : Input) : s.Took [] := ⟨nofun, nofun⟩

theorem Gives.refl (s : Input) : s.Gives [] s := ⟨rfl, nofun, rfl⟩

theorem Gives.trans {more : List Token} (h : s.Gives row s₁) (h' : s₁.Gives more s₂) :
    s.Gives (row ++ more) s₂ where
  rest := by rw [h.rest, h'.rest, List.append_assoc]
  words t ht := (List.mem_append.mp ht).elim (h.words t) (h'.words t)
  last := by rw [h'.last, h.last, List.getLast?_append, Option.or_assoc]

theorem Gives.took (hTook : s.Took taken) (h : s.Gives row s₁) : s₁.Took (taken ++ row) where
  words t ht := (List.mem_append.mp ht).elim (hTook.words t) (h.words t)
  last t ht := by
    rw [List.getLast?_append] at ht
    rw [h.last]
    cases hRow : row.getLast? with
    | some u =>
      rw [hRow] at ht
      exact ht
    | none =>
      rw [hRow] at ht
      exact hTook.last t ht

theorem Gives.terminals (h : s.Gives row s₁) :
    s.terminals = row.map Token.terminal ++ s₁.terminals := by
  have hWords : ∀ {row rest : List Token}, (∀ t ∈ row, t.kind ≠ .endOfInput) →
      Token.terminals (row ++ rest) = row.map Token.terminal ++ Token.terminals rest := by
    intro row rest hWords
    induction row with
    | nil => rfl
    | cons t row ih =>
      obtain ⟨hHead, hTail⟩ := List.forall_mem_cons.mp hWords
      rw [List.cons_append, Token.terminals_cons hHead, ih hTail]
      rfl
  rw [Input.terminals, h.rest, hWords h.words]
  rfl

end Input

namespace Parser

open Input (Gives Took)
open Terminal (isMark)

variable {α β : Type} {taken : List Token} {f : Option Token}

/-- With the row `taken` behind and the token `f` ahead, `p` takes more tokens, such that `R`
relates the whole row to the token ahead afterwards and to the result. -/
def Draws (taken : List Token) (f : Option Token) (p : Parser α)
    (R : List Token → Option Token → α → Prop) : Prop :=
  ∀ s a s', s.Took taken → s.rest.head? = f → p s = .ok (a, s') →
    ∃ row, s.Gives row s' ∧ R (taken ++ row) s'.rest.head? a

variable {p : Parser α} {R : List Token → Option Token → α → Prop}
  {S : List Token → Option Token → β → Prop}

theorem draws_pure {a : α} (h : R taken f a) : Draws taken f (pure a) R := by
  rintro s b s' - rfl hRun
  cases hRun
  exact ⟨[], .refl s, by rwa [List.append_nil]⟩

theorem draws_bind {g : α → Parser β} (hp : Draws taken f p R)
    (hg : ∀ a row n, R row n a → Draws row n (g a) S) : Draws taken f (p >>= g) S := by
  intro s b s' hTook hAhead hRun
  obtain ⟨a, s₁, hFirst, hThen⟩ := exists_of_bind hRun
  obtain ⟨row, hGives, hR⟩ := hp s a s₁ hTook hAhead hFirst
  obtain ⟨more, hMore, hS⟩ := hg a _ _ hR s₁ b s' (hGives.took hTook) rfl hThen
  exact ⟨row ++ more, hGives.trans hMore, by rwa [← List.append_assoc]⟩

theorem draws_mono {R' : List Token → Option Token → α → Prop} (h : Draws taken f p R)
    (hImp : ∀ row n a, R row n a → R' row n a) : Draws taken f p R' := by
  intro s a s' hTook hAhead hRun
  obtain ⟨row, hGives, hR⟩ := h s a s' hTook hAhead hRun
  exact ⟨row, hGives, hImp _ _ _ hR⟩

theorem draws_map {k : α → β} (h : Draws taken f p fun row n a => S row n (k a)) :
    Draws taken f (k <$> p) S := by
  rw [map_eq_pure_bind]
  exact draws_bind h fun a row n ha => draws_pure ha

theorem draws_failAt (t : Token) (cause : ParseCause) : Draws taken f (failAt t cause) R := by
  rintro s a s' - - hRun
  cases hRun

theorem draws_ite {c : Prop} [Decidable c] {q : Parser α} (hp : c → Draws taken f p R)
    (hq : ¬c → Draws taken f q R) : Draws taken f (if c then p else q) R := by
  split
  · exact hp ‹_›
  · exact hq ‹_›

/-- What is taken is no end of input. -/
theorem draws_words (h : Draws taken f p R) :
    Draws taken f p fun row n a => R row n a ∧ ∀ t ∈ row, t.kind ≠ .endOfInput := by
  intro s a s' hTook hAhead hRun
  obtain ⟨row, hGives, hR⟩ := h s a s' hTook hAhead hRun
  exact ⟨row, hGives, hR, (hGives.took hTook).words⟩

/-- A parser that does not look back draws a row of its own. -/
theorem draws_fresh (h : Draws [] f p R) :
    Draws taken f p fun row n a => ∃ own, row = taken ++ own ∧ own.head?.or n = f ∧ R own n a := by
  rintro s a s' - rfl hRun
  obtain ⟨row, hGives, hR⟩ := h s a s' (Input.took_nil s) rfl hRun
  refine ⟨row, hGives, row, rfl, ?_, hR⟩
  rw [hGives.rest, List.head?_append]

theorem draws_fresh_bind {g : α → Parser β} (hp : Draws [] f p R)
    (hg : ∀ a own n, own.head?.or n = f → R own n a → Draws (taken ++ own) n (g a) S) :
    Draws taken f (p >>= g) S := by
  refine draws_bind (draws_fresh hp) ?_
  rintro a row n ⟨own, rfl, hHead, hR⟩
  exact hg a own n hHead hR

theorem draws_first_bind {g : α → Parser β} (hp : Draws [] f p R)
    (hg : ∀ a row n, row.head?.or n = f → R row n a → Draws row n (g a) S) :
    Draws [] f (p >>= g) S :=
  draws_fresh_bind hp hg

/-- The terminal is what is ahead if the token is. -/
def Shows (f : Option Token) (x : Terminal) : Prop :=
  ∀ t, f = some t → t.kind ≠ .endOfInput → x = t.terminal

theorem Shows.eq_mark {t : Token} {x : Terminal} {kind : TokenKind} (h : Shows (some t) x)
    (hKind : t.kind = kind) (hMark : isMark kind = true) : x = .mark kind := by
  rw [h t rfl (hKind ▸ Terminal.ne_end_of_isMark hMark)]
  exact Terminal.eq_mark hMark (by rw [Token.kind_terminal, hKind])

theorem Shows.takes {t : Token} {x : Terminal} {kind : TokenKind}
    {R' : List Terminal → Terminal → α → Prop} (h : Shows (some t) x) (hKind : t.kind = kind)
    (hMark : isMark kind = true) (h' : Takes (.mark kind) p R') : Takes x p R' := by
  rw [h.eq_mark hKind hMark]
  exact h'

/-- What the parser takes are the terminals of the tokens by which the row grows. -/
theorem draws_takes {R' : List Terminal → Terminal → α → Prop} (h : Draws taken f p R)
    (h' : ∀ x, Shows f x → Takes x p R') :
    Draws taken f p fun row n a => R row n a ∧
      ∃ own m, row = taken ++ own ∧ R' (own.map Token.terminal) m a := by
  intro s a s' hTook hHead hRun
  have hAhead : Shows f s.ahead := by
    rintro t rfl hKind
    obtain ⟨rest, hRest⟩ := List.head?_eq_some_iff.mp hHead
    rw [Input.ahead, Input.terminals, hRest, Token.terminals_cons hKind]
    rfl
  obtain ⟨row, hGives, hR⟩ := h s a s' hTook hHead hRun
  obtain ⟨xs, hLeads, hR'⟩ := h' _ hAhead s a s' rfl hRun
  obtain rfl : xs = row.map Token.terminal :=
    List.append_cancel_right (hLeads.terminals.symm.trans hGives.terminals)
  exact ⟨row, hGives, hR, row, _, rfl, hR'⟩

/-! ## Tokens -/

/-- The token seen is the token ahead, or else an end of input. -/
def Seen (t : Token) (f : Option Token) : Prop := f = some t ∨ f = none ∧ t.kind = .endOfInput

theorem Seen.eq {t : Token} (h : Seen t f) (hKind : t.kind ≠ .endOfInput) : f = some t :=
  h.resolve_right fun hEnd => hKind hEnd.2

/-- A row that begins with something begins with the token that was seen before it. -/
theorem Seen.first {t : Token} {n : Option Token} {row : List Token}
    {suitable : TokenKind → Bool} (h : Seen t f) (hHead : row.head?.or n = f)
    (hOpens : Form.Opens suitable (row.map Token.terminal)) : row.head? = some t := by
  cases row with
  | nil => exact absurd rfl hOpens.ne_nil
  | cons u row =>
    rcases h with rfl | ⟨rfl, -⟩
    · exact hHead
    · cases hHead

theorem draws_peek_bind {g : Token → Parser β} (hg : ∀ t, Seen t f → Draws taken f (g t) S) :
    Draws taken f (peek >>= g) S := by
  intro s b s' hTook hAhead hRun
  obtain ⟨t, s₁, hPeek, hThen⟩ := exists_of_bind hRun
  obtain rfl := peek_stays hPeek
  refine hg t ?_ s₁ b s' hTook hAhead hThen
  rw [← hAhead]
  unfold peek at hPeek
  cases hRest : s₁.rest with
  | cons u rest =>
    rw [hRest] at hPeek
    cases hPeek
    exact .inl rfl
  | nil =>
    cases hFailure : s₁.failure with
    | some e => simp [hRest, hFailure] at hPeek
    | none =>
      simp only [hRest, hFailure] at hPeek
      cases hPeek
      exact .inr ⟨rfl, rfl⟩

theorem draws_advance_bind {t : Token} {g : Token → Parser β} (hKind : t.kind ≠ .endOfInput)
    (hg : ∀ n, Draws (taken ++ [t]) n (g t) S) : Draws taken (some t) (advance >>= g) S := by
  intro s b s' hTook hAhead hRun
  obtain ⟨rest, hRow⟩ := List.head?_eq_some_iff.mp hAhead
  have hRest : s.rest = t :: s.rest.tail := by rw [hRow]; rfl
  obtain ⟨u, s₁, hTake, hThen⟩ := exists_of_bind hRun
  rw [advance_cons hRest hKind] at hTake
  cases hTake
  have hGives : s.Gives [t] { s with rest := s.rest.tail, last := some t } :=
    ⟨hRest, fun u hu => List.mem_singleton.mp hu ▸ hKind, rfl⟩
  obtain ⟨row, hMore, hS⟩ := hg _ _ b s' (hGives.took hTook) rfl hThen
  exact ⟨t :: row, hGives.trans hMore, by rwa [List.append_assoc] at hS⟩

theorem draws_expect_bind {kind : TokenKind} {wanted : String} {g : Token → Parser β}
    (hKind : kind ≠ .endOfInput)
    (hg : ∀ t n, t.kind = kind → Draws (taken ++ [t]) n (g t) S) :
    Draws taken f (expect kind wanted >>= g) S := by
  unfold expect
  rw [bind_assoc]
  refine draws_peek_bind fun t hSeen => ?_
  split
  · next hSame =>
    have hEnd : t.kind ≠ .endOfInput := hSame ▸ hKind
    rw [hSeen.eq hEnd]
    exact draws_advance_bind hEnd fun n => hg t n hSame
  · exact draws_bind (R := fun _ _ _ => False) (draws_failAt _ _) fun _ _ _ h => h.elim

theorem draws_check_bind {kind : TokenKind} {g : Bool → Parser β}
    (hg : ∀ b, (b = true → ∃ t, Seen t f ∧ t.kind = kind) → Draws taken f (g b) S) :
    Draws taken f (check kind >>= g) S := by
  unfold check
  rw [bind_assoc]
  refine draws_peek_bind fun t hSeen => ?_
  rw [pure_bind]
  exact hg _ fun hTrue => ⟨t, hSeen, of_decide_eq_true hTrue⟩

/-- A token that may be there or not. -/
theorem draws_accept_bind {kind : TokenKind} {g : Bool → Parser β} (hKind : kind ≠ .endOfInput)
    (hYes : ∀ t n, t.kind = kind → Draws (taken ++ [t]) n (g true) S)
    (hNo : Draws taken f (g false) S) : Draws taken f (accept kind >>= g) S := by
  unfold accept
  rw [bind_assoc]
  refine draws_check_bind fun b hb => ?_
  cases b with
  | false => exact hNo
  | true =>
    obtain ⟨t, hSeen, hSame⟩ := hb rfl
    have hEnd : t.kind ≠ .endOfInput := hSame ▸ hKind
    simp only [if_true, bind_assoc, pure_bind]
    rw [hSeen.eq hEnd]
    exact draws_advance_bind hEnd fun n => hYes t n hSame

theorem draws_acceptAs {wanted : TokenKind → Option β} (hEnd : wanted .endOfInput = none) :
    Draws taken f (acceptAs wanted) fun row n b =>
      (b = none ∧ row = taken ∧ n = f) ∨
        ∃ t c, b = some c ∧ row = taken ++ [t] ∧ wanted t.kind = some c := by
  refine draws_peek_bind fun t hSeen => ?_
  split
  · next c hc =>
    have hKind : t.kind ≠ .endOfInput := fun hKind => by
      rw [hKind, hEnd] at hc
      cases hc
    rw [hSeen.eq hKind]
    exact draws_advance_bind hKind fun n => draws_pure (.inr ⟨t, c, rfl, rfl, hc⟩)
  · exact draws_pure (.inl ⟨rfl, rfl, rfl⟩)

theorem draws_atClose_bind {g : Bool → Parser β} (hg : ∀ b, Draws taken f (g b) S) :
    Draws taken f (atClose >>= g) S := by
  unfold atClose
  rw [bind_assoc]
  refine draws_peek_bind fun t _ => ?_
  rw [pure_bind]
  exact hg _

/-- The span of what has been taken, if it was taken from `start` on. -/
theorem draws_spanFrom_bind {start : Token} {g : Option Span → Parser β}
    (hStart : taken.head? = some start) (hg : Draws taken f (g (Token.rowSpan taken)) S) :
    Draws taken f (spanFrom start >>= g) S := by
  intro s b s' hTook hAhead hRun
  obtain ⟨span, s₁, hSpan, hThen⟩ := exists_of_bind hRun
  cases hSpan
  have hLast : ∃ u, taken.getLast? = some u := by
    cases taken with
    | nil => cases hStart
    | cons t row => exact ⟨_, List.getLast?_cons⟩
  obtain ⟨u, hu⟩ := hLast
  refine hg s b s' hTook hAhead ?_
  rw [Token.rowSpan, hStart, hu]
  rw [hTook.last u hu] at hThen
  exact hThen

theorem draws_previous_bind {g : Token → Parser β} (hg : ∀ t s, ∃ e, g t s = .error e) :
    Draws taken f (previous >>= g) S := by
  rintro s b s' - - hRun
  obtain ⟨t, s₁, -, hThen⟩ := exists_of_bind hRun
  obtain ⟨e, he⟩ := hg t s₁
  rw [he] at hThen
  cases hThen

/-! ## Repetition -/

/-- What holds of a row before a repetition holds after it, if it lasts over a round. -/
theorem draws_chain {more : Parser (Option β)} {step : α → β → Parser α}
    {I : List Token → Option Token → α → Prop}
    (hRound : ∀ row f a, I row f a → Draws row f more fun row' n b =>
      (b = none → I row' n a) ∧ ∀ c, b = some c → Draws row' n (step a c) I)
    {a : α} (ha : I taken f a) : Draws taken f (chain more step a) I := by
  have hUpTo : ∀ fuel taken f a, I taken f a → Draws taken f (chainUpTo more step fuel a) I := by
    intro fuel
    induction fuel with
    | zero => exact fun taken f a ha => draws_pure ha
    | succ fuel ih =>
      intro taken f a ha
      refine draws_bind (hRound taken f a ha) fun b row n hb => ?_
      cases b with
      | none => exact draws_pure (hb.1 rfl)
      | some c => exact draws_bind (hb.2 c rfl) fun a' row' n' ha' => ih row' n' a' ha'
  intro s b s' hTook hAhead hRun
  exact hUpTo (s.size + 1) taken f a ha s b s' hTook hAhead hRun

end Parser

end Tern
