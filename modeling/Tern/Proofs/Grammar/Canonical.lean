import Tern.Proofs.Grammar.Placement
import Tern.Proofs.Grammar.Soundness
import Tern.Proofs.Syntax.Phrase

/-!
# Rows in canonical form

The grammar leaves two things open in a row of terminals: parentheses around expressions, and the
semicolon before a closing brace or the end of input. `Terminal.tidy` takes those parentheses out
and puts that semicolon in. It looks at terminals only: an opening parenthesis groups unless
something stands before it that can be called or that wants it, and a semicolon is missing unless
one, or a brace, stands before the place.

What comes out is the tree written down without parentheses, whatever the row was.

* `Terminal.tidy`: a row in canonical form;
* `Terminal.Tidies`: how a part of a row is tidied;
* `Form.Whole.tidy_eq`: a row that spells a program is tidied to the terminals of the program;
* `Program.canonical_of_stream`: so are the terminals that a program is parsed from, and every
  construct of the program stands where it may.
-/

namespace Tern

open Terminal (first)

namespace Terminal

/-! ## Tidying -/

/-- The kinds after which an opening parenthesis begins arguments or parameters. -/
def endsOperand : TokenKind → Bool
  | .identifier | .string | .number | .kwTrue | .kwFalse | .kwNull | .kwThis | .rightParen
  | .rightBracket => true
  | _ => false

/-- The keywords that have a parenthesis of their own after them. -/
def wantsParen : TokenKind → Bool
  | .kwIf | .kwElif | .kwWhile | .kwFor | .kwCatch => true
  | _ => false

/-- The kinds after which a statement is not over. -/
def leavesOpen : TokenKind → Bool
  | .semicolon | .leftBrace | .rightBrace => false
  | _ => true

/-- What is remembered of the terminals before a place: the kind of the last one, and of each
parenthesis that is still open whether it is kept. -/
structure Margin where
  last : Option TokenKind
  opened : List Bool

namespace Margin

/-- Whether an opening parenthesis is kept here. -/
def keeps (m : Margin) : Bool := m.last.any fun kind => endsOperand kind || wantsParen kind

/-- The semicolon that is missing if statements end here. -/
def missing (m : Margin) : List Terminal :=
  if m.last.any leavesOpen then [.mark .semicolon] else []

/-- What is written for a terminal. -/
def written (m : Margin) (t : Terminal) : List Terminal :=
  match t.kind with
  | .leftParen => if m.keeps then [t] else []
  | .rightParen => if m.opened.headD true then [t] else []
  | .rightBrace | .endOfInput => m.missing ++ [t]
  | _ => [t]

/-- The margin after a terminal. -/
def next (m : Margin) (t : Terminal) : Margin :=
  ⟨some t.kind,
    match t.kind with
    | .leftParen => m.keeps :: m.opened
    | .rightParen => m.opened.tail
    | _ => m.opened⟩

end Margin

/-- The rest of a row in canonical form. -/
def tidyFrom (m : Margin) : List Terminal → List Terminal
  | [] => m.missing
  | t :: ts => m.written t ++ tidyFrom (m.next t) ts

/-- A row in canonical form: without the parentheses that only group, and with a semicolon where
one was left out before a closing brace or at the end. -/
def tidy (ts : List Terminal) : List Terminal := tidyFrom ⟨none, []⟩ ts

/-- The terminals `xs` are tidied to `ys`, whatever comes after them. -/
def Tidies (m : Margin) (xs ys : List Terminal) (m' : Margin) : Prop :=
  ∀ rest, tidyFrom m (xs ++ rest) = ys ++ tidyFrom m' rest

variable {m m' m'' : Margin} {xs ys xs' ys' : List Terminal} {t : Terminal}

theorem Tidies.nil : Tidies m [] [] m := fun _ => rfl

theorem Tidies.append (h : Tidies m xs ys m') (h' : Tidies m' xs' ys' m'') :
    Tidies m (xs ++ xs') (ys ++ ys') m'' := by
  intro rest
  rw [List.append_assoc, h, h', List.append_assoc]

/-- The kinds that are written as they are. -/
def isPlain : TokenKind → Bool
  | .leftParen | .rightParen | .rightBrace | .endOfInput => false
  | _ => true

theorem Tidies.one (h : isPlain t.kind = true) : Tidies m [t] [t] ⟨some t.kind, m.opened⟩ := by
  intro rest
  have hWritten : m.written t = [t] := by
    unfold Margin.written
    generalize t.kind = kind at h
    cases kind <;> first | rfl | cases h
  have hNext : m.next t = ⟨some t.kind, m.opened⟩ := by
    unfold Margin.next
    generalize t.kind = kind at h
    cases kind <;> first | rfl | cases h
  rw [List.singleton_append, tidyFrom, hWritten, hNext]

theorem Tidies.cons (h : isPlain t.kind = true) (h' : Tidies ⟨some t.kind, m.opened⟩ xs ys m') :
    Tidies m (t :: xs) (t :: ys) m' :=
  (Tidies.one h).append h'

theorem Tidies.snoc (h : Tidies m xs ys m') (h' : isPlain t.kind = true) :
    Tidies m (xs ++ [t]) (ys ++ [t]) ⟨some t.kind, m'.opened⟩ :=
  h.append (.one h')

/-- Parentheses that belong to a call, a function or a statement stay. -/
theorem Tidies.kept {last : Option TokenKind} (hKeeps : m.keeps = true)
    (h : Tidies ⟨some .leftParen, true :: m.opened⟩ xs ys ⟨last, true :: m.opened⟩) :
    Tidies m (.mark .leftParen :: (xs ++ [.mark .rightParen]))
      (.mark .leftParen :: (ys ++ [.mark .rightParen])) ⟨some .rightParen, m.opened⟩ := by
  intro rest
  have hOpens : m.written (.mark .leftParen) = [.mark .leftParen] := if_pos hKeeps
  have hNext : m.next (.mark .leftParen) = ⟨some .leftParen, true :: m.opened⟩ := by
    rw [← hKeeps]
    rfl
  have hCloses : tidyFrom ⟨last, true :: m.opened⟩ ([.mark .rightParen] ++ rest) =
      .mark .rightParen :: tidyFrom ⟨some .rightParen, m.opened⟩ rest := rfl
  rw [List.cons_append, tidyFrom, hOpens, hNext, List.append_assoc, h, hCloses]
  simp

/-- Other parentheses do not. -/
theorem Tidies.dropped {last : Option TokenKind} (hKeeps : m.keeps = false)
    (h : Tidies ⟨some .leftParen, false :: m.opened⟩ xs ys ⟨last, false :: m.opened⟩) :
    Tidies m (.mark .leftParen :: (xs ++ [.mark .rightParen])) ys ⟨some .rightParen, m.opened⟩ := by
  intro rest
  have hOpens : m.written (.mark .leftParen) = [] := by
    change (if m.keeps then _ else _) = _
    rw [hKeeps, if_neg Bool.false_ne_true]
  have hNext : m.next (.mark .leftParen) = ⟨some .leftParen, false :: m.opened⟩ := by
    rw [← hKeeps]
    rfl
  rw [List.cons_append, tidyFrom, hOpens, hNext, List.append_assoc, h]
  rfl

end Terminal

open Terminal (Margin Tidies isPlain endsOperand leavesOpen tidyFrom)

namespace Form

variable {g : Forms} {ctx : Context} {xs ys : List Terminal}

/-! ## Expressions -/

/-- Where an expression may begin, the row is tidied to the expression without parentheses. -/
def Spells (xs : List Terminal) (e : Expr) : Prop :=
  ∀ (m : Margin) (place : List Nat), m.keeps = false →
    ∃ kind, endsOperand kind = true ∧ Tidies m xs (e.core .bare place).terminals
      ⟨some kind, m.opened⟩

/-- The expressions in the form are spelled. -/
def Spelling (form : List Terminal → Expr → Prop) : Prop := ∀ xs e, form xs e → Spells xs e

section

variable {α : Type} {form : List Terminal → α → Prop} (spelled : Nat → α → Phrase)
  (row : Nat → List α → List Phrase)

theorem AfterCommas.tidies (hNil : ∀ i, row i [] = [])
    (hCons : ∀ i a as, row i (a :: as) = spelled i a :: row (i + 1) as)
    (hItem : ∀ i xs a, form xs a → ∀ m : Margin, m.keeps = false →
      ∃ last, Tidies m xs (spelled i a).terminals ⟨last, m.opened⟩)
    {as : List α} (h : AfterCommas form xs as) (m : Margin) (i : Nat) :
    ∃ last, Tidies m xs (Phrase.afterCommas (row i as)).terminals ⟨last, m.opened⟩ := by
  induction h generalizing m i with
  | nil =>
    rw [hNil]
    exact ⟨m.last, .nil⟩
  | cons hHead _ ih =>
    obtain ⟨last, hFirst⟩ := hItem i _ _ hHead ⟨some .comma, m.opened⟩ rfl
    obtain ⟨last', hRest⟩ := ih ⟨last, m.opened⟩ (i + 1)
    rw [hCons]
    exact ⟨last', .cons rfl (hFirst.append hRest)⟩

theorem Listed.tidies (hNil : ∀ i, row i [] = [])
    (hCons : ∀ i a as, row i (a :: as) = spelled i a :: row (i + 1) as)
    (hItem : ∀ i xs a, form xs a → ∀ m : Margin, m.keeps = false →
      ∃ last, Tidies m xs (spelled i a).terminals ⟨last, m.opened⟩)
    {as : List α} (h : Listed form xs as) (m : Margin) (hKeeps : m.keeps = false) (i : Nat) :
    ∃ last, Tidies m xs (Phrase.commas (row i as)).terminals ⟨last, m.opened⟩ := by
  cases h with
  | nil =>
    rw [hNil]
    exact ⟨m.last, .nil⟩
  | cons hHead hTail =>
    obtain ⟨last, hFirst⟩ := hItem i _ _ hHead m hKeeps
    obtain ⟨last', hRest⟩ := hTail.tidies spelled row hNil hCons hItem ⟨last, m.opened⟩ (i + 1)
    rw [hCons]
    exact ⟨last', hFirst.append hRest⟩

end

theorem Listed.spells {form : List Terminal → Expr → Prop} (hForm : Spelling form)
    {es : List Expr} (h : Listed form xs es) (m : Margin) (hKeeps : m.keeps = false)
    (place : List Nat) (i : Nat) :
    ∃ last, Tidies m xs (Phrase.commas (Expr.items .bare place i es)).terminals
      ⟨last, m.opened⟩ := by
  refine h.tidies (fun i e => (e.core .bare (i :: place)).inner) (Expr.items .bare place)
    (fun _ => rfl) (fun _ _ _ => rfl) (fun i xs e he m hKeeps => ?_) m hKeeps i
  obtain ⟨kind, -, hItem⟩ := hForm xs e he m (i :: place) hKeeps
  exact ⟨some kind, hItem⟩

theorem Primary.spells (hInner : Spelling (g.expression ctx)) : Spelling (Primary g ctx) := by
  intro xs e h m place hKeeps
  cases h with
  | number | string | null | this | name => exact ⟨_, rfl, .one rfl⟩
  | boolean v s => cases v <;> exact ⟨_, rfl, .one rfl⟩
  | super => exact ⟨.identifier, rfl, .cons rfl (.cons rfl (.one rfl))⟩
  | grouped hInside =>
    obtain ⟨kind, -, hItem⟩ := hInner _ _ hInside ⟨some .leftParen, false :: m.opened⟩ place rfl
    exact ⟨.rightParen, rfl, .dropped hKeeps hItem⟩
  | array s hItems =>
    obtain ⟨last, hList⟩ := hItems.spells hInner ⟨some .leftBracket, m.opened⟩ rfl place 0
    exact ⟨.rightBracket, rfl, .cons rfl (hList.snoc rfl)⟩

/-- Rounds keep what each of them keeps. -/
theorem Rounds.keep {α : Type} {round : α → List Terminal → α → Prop}
    {P : List Terminal → α → Prop} (hRound : ∀ xs a ys b, P xs a → round a ys b → P (xs ++ ys) b)
    {a b : α} (h : Rounds round a ys b) (hStart : P xs a) : P (xs ++ ys) b := by
  induction h generalizing xs with
  | done => rwa [List.append_nil]
  | more hNow _ ih =>
    rw [← List.append_assoc]
    exact ih (hRound _ _ _ _ hStart hNow)

theorem Chained.spells {start : List Terminal → Expr → Prop}
    {round : Expr → List Terminal → Expr → Prop} (hStart : Spelling start)
    (hRound : ∀ xs a ys b, Spells xs a → round a ys b → Spells (xs ++ ys) b) :
    Spelling (Chained start round) := by
  rintro _ e ⟨ys, zs, b, rfl, hFirst, hRounds⟩
  exact hRounds.keep hRound (hStart _ _ hFirst)

theorem keeps_of_endsOperand {kind : TokenKind} (h : endsOperand kind = true)
    (opened : List Bool) : (Margin.mk (some kind) opened).keeps = true := by
  change (endsOperand kind || _) = true
  rw [h, Bool.true_or]

theorem Suffixed.spells (hInner : Spelling (g.expression ctx)) (xs : List Terminal) (a : Expr)
    (ys : List Terminal) (b : Expr) (ha : Spells xs a) (h : Suffixed g ctx a ys b) :
    Spells (xs ++ ys) b := by
  intro m place hKeeps
  obtain ⟨kind, hEnds, hObject⟩ := ha m (0 :: place) hKeeps
  cases h with
  | call s hItems =>
    obtain ⟨last, hList⟩ := hItems.spells hInner ⟨some .leftParen, true :: m.opened⟩ rfl place 1
    exact ⟨.rightParen, rfl,
      hObject.append (.kept (keeps_of_endsOperand hEnds _) hList)⟩
  | member n s =>
    have hName : Tidies ⟨some kind, m.opened⟩ [.mark .dot, .name n.name] [.mark .dot, .name n.name]
        ⟨some .identifier, m.opened⟩ := .cons rfl (.one rfl)
    have hMember := hObject.append hName
    exact ⟨.identifier, rfl, by simpa [Expr.core] using hMember⟩
  | index s hInside =>
    obtain ⟨kind, -, hIndex⟩ := hInner _ _ hInside ⟨some .leftBracket, m.opened⟩ (1 :: place) rfl
    exact ⟨.rightBracket, rfl, hObject.append (.cons rfl (hIndex.snoc rfl))⟩

theorem Called.spells (hInner : Spelling (g.expression ctx)) : Spelling (Called g ctx) :=
  Chained.spells (Primary.spells hInner) (Suffixed.spells hInner)

/-! ### Operators -/

theorem kind_of_unaryOp {kind : TokenKind} {op : UnaryOp} (h : Grammar.unaryOp kind = some op) :
    op.kind = kind := by
  cases kind <;> first | (cases h; rfl) | cases h

theorem Unary.spells (hInner : Spelling (g.expression ctx)) (hOperand : Spelling (g.operand ctx)) :
    Spelling (Unary g ctx) := by
  intro xs e h m place hKeeps
  cases h with
  | @operator kind op xs e s hIsOp hRight =>
    have hPlain : isPlain kind = true := by
      cases kind <;> first | rfl | cases hIsOp
    have hOpens : (Margin.mk (some kind) m.opened).keeps = false := by
      cases kind <;> first | rfl | cases hIsOp
    obtain ⟨last, hEnds, hItem⟩ := hOperand _ _ hRight ⟨some kind, m.opened⟩ (0 :: place) hOpens
    refine ⟨last, hEnds, ?_⟩
    have hAll : Tidies m (.mark kind :: xs)
        (.mark kind :: (e.core .bare (0 :: place)).terminals) ⟨some last, m.opened⟩ :=
      .cons hPlain hItem
    rw [← kind_of_unaryOp hIsOp] at hAll ⊢
    exact hAll
  | call hCall => exact Called.spells hInner _ _ hCall m place hKeeps

/-- What is needed of the operators of a tier: they are written as they are read, between their
operands. -/
structure Writes {β : Type} (op : TokenKind → Option β)
    (join : β → Expr → Expr → Option Span → Expr) : Prop where
  opens : ∀ {kind b}, op kind = some b → isPlain kind = true ∧
    ∀ opened, (Margin.mk (some kind) opened).keeps = false
  core : ∀ {kind b}, op kind = some b → ∀ l r s place, ((join b l r s).core .bare place).terminals =
    (l.core .bare (0 :: place)).terminals ++
      .mark kind :: (r.core .bare (1 :: place)).terminals

theorem LeftAssoc.spells {β : Type} {op : TokenKind → Option β}
    {join : β → Expr → Expr → Option Span → Expr} {operand : List Terminal → Expr → Prop}
    (hOp : Writes op join) (hOperand : Spelling operand) :
    Spelling (LeftAssoc op join operand) := by
  refine Chained.spells hOperand fun xs l ys e hLeft hRound m place hKeeps => ?_
  obtain ⟨s, hIsOp, hRight⟩ := hRound
  obtain ⟨hPlain, hOpens⟩ := hOp.opens hIsOp
  obtain ⟨kind, -, hFirst⟩ := hLeft m (0 :: place) hKeeps
  obtain ⟨last, hEnds, hSecond⟩ := hOperand _ _ hRight ⟨some _, m.opened⟩ (1 :: place) (hOpens _)
  refine ⟨last, hEnds, ?_⟩
  rw [hOp.core hIsOp]
  exact hFirst.append (.cons hPlain hSecond)

theorem writes_binary {op : TokenKind → Option BinaryOp}
    (hKind : ∀ kind b, op kind = some b → b.kind = kind) : Writes op .binary where
  opens {kind b} h := by
    rw [← hKind kind b h]
    cases b <;> exact ⟨rfl, fun _ => rfl⟩
  core {kind b} h l r s place := by
    rw [← hKind kind b h]
    simp [Expr.core]

theorem writes_logical {op : TokenKind → Option LogicalOp}
    (hKind : ∀ kind b, op kind = some b → b.kind = kind) : Writes op .logical where
  opens {kind b} h := by
    rw [← hKind kind b h]
    cases b <;> exact ⟨rfl, fun _ => rfl⟩
  core {kind b} h l r s place := by
    rw [← hKind kind b h]
    simp [Expr.core]

theorem LogicOr.spells (hInner : Spelling (g.expression ctx))
    (hOperand : Spelling (g.operand ctx)) : Spelling (LogicOr g ctx) := by
  refine LeftAssoc.spells (writes_logical fun kind b h => by cases kind <;> cases h; rfl) ?_
  refine LeftAssoc.spells (writes_logical fun kind b h => by cases kind <;> cases h; rfl) ?_
  refine LeftAssoc.spells (writes_binary fun kind b h => by cases kind <;> cases h <;> rfl) ?_
  refine LeftAssoc.spells (writes_binary fun kind b h => by cases kind <;> cases h <;> rfl) ?_
  refine LeftAssoc.spells (writes_binary fun kind b h => by cases kind <;> cases h <;> rfl) ?_
  refine LeftAssoc.spells (writes_binary fun kind b h => by cases kind <;> cases h <;> rfl) ?_
  exact Unary.spells hInner hOperand

/-- The target of an assignment is written as an expression is. -/
theorem core_of_assignTo {target value e : Expr} {s : Option Span}
    (h : Grammar.assignTo? target value s = some e) : ∃ step : Nat, ∀ place,
      (e.core .bare place).terminals = (target.core .bare place).terminals ++
        .mark .equal :: (value.core .bare (step :: place)).terminals := by
  unfold Grammar.assignTo? at h
  split at h
  · cases h
    exact ⟨0, fun place => by simp [Expr.core]⟩
  · cases h
    exact ⟨1, fun place => by simp [Expr.core]⟩
  · cases h
    exact ⟨2, fun place => by simp [Expr.core]⟩
  · cases h

theorem Expression.spells (hInner : Spelling (g.expression ctx))
    (hOperand : Spelling (g.operand ctx)) : Spelling (Expression g ctx) := by
  intro xs e h m place hKeeps
  cases h with
  | value hValue => exact LogicOr.spells hInner hOperand _ _ hValue m place hKeeps
  | assign s hTarget hValue hAssigns =>
    obtain ⟨step, hCore⟩ := core_of_assignTo hAssigns
    obtain ⟨kind, -, hLeft⟩ := LogicOr.spells hInner hOperand _ _ hTarget m place hKeeps
    obtain ⟨last, hEnds, hRight⟩ := hInner _ _ hValue ⟨some .equal, m.opened⟩ (step :: place) rfl
    refine ⟨last, hEnds, ?_⟩
    rw [hCore]
    exact hLeft.append (.cons rfl hRight)

end Form

/-! ## Statements -/

/-- Between statements. -/
def Terminal.Margin.Fresh (m : Margin) : Prop := m.last.any leavesOpen = false

theorem Terminal.Margin.Fresh.keeps {m : Margin} (h : m.Fresh) : m.keeps = false := by
  obtain ⟨last, opened⟩ := m
  cases last with
  | none => rfl
  | some kind =>
    change leavesOpen kind = false at h
    cases kind <;> first | rfl | cases h

theorem Terminal.Margin.Fresh.missing {m : Margin} (h : m.Fresh) : m.missing = [] := by
  unfold Margin.missing
  rw [h, if_neg Bool.false_ne_true]

namespace Form

variable {g : Forms} {ctx : Context} {xs ys : List Terminal} {next : Terminal}

/-- The row is tidied to whole statements, methods or arms. -/
def Lays (xs ys : List Terminal) : Prop :=
  ∀ m : Margin, m.Fresh → ∃ m' : Margin, m'.Fresh ∧ m'.opened = m.opened ∧ Tidies m xs ys m'

/-- The row is tidied to something that ends with a closing brace. -/
def Closed (xs ys : List Terminal) : Prop :=
  ∀ m : Margin, Tidies m xs ys ⟨some .rightBrace, m.opened⟩

/-- Like `Lays`, if the row has `next` after it. -/
def LaysBefore (next : Terminal) (xs ys : List Terminal) : Prop :=
  ∀ m : Margin, m.Fresh → ∀ rest, first rest (.mark .endOfInput) = next →
    ∃ m' : Margin, m'.Fresh ∧ m'.opened = m.opened ∧
      tidyFrom m (xs ++ rest) = ys ++ tidyFrom m' rest

theorem Closed.lays (h : Closed xs ys) : Lays xs ys :=
  fun m _ => ⟨⟨some .rightBrace, m.opened⟩, rfl, rfl, h m⟩

theorem Lays.before (h : Lays xs ys) : LaysBefore next xs ys := by
  intro m hFresh rest _
  obtain ⟨m', hFresh', hOpened, hTidies⟩ := h m hFresh
  exact ⟨m', hFresh', hOpened, hTidies rest⟩

section

variable {α : Type} {item : List Terminal → Terminal → α → Prop}
  (spelled : Nat → α → List Terminal) (row : Nat → List α → List Terminal)

theorem Series.lays (hNil : ∀ i, row i [] = [])
    (hCons : ∀ i a as, row i (a :: as) = spelled i a ++ row (i + 1) as)
    (hItem : ∀ i xs n a, item xs n a → Lays xs (spelled i a)) {as : List α}
    (h : Series item xs next as) (i : Nat) : Lays xs (row i as) := by
  induction h generalizing i with
  | nil =>
    intro m hFresh
    rw [hNil]
    exact ⟨m, hFresh, rfl, .nil⟩
  | cons hHead _ ih =>
    intro m hFresh
    obtain ⟨m₁, hFresh₁, hOpened₁, hFirst⟩ := hItem i _ _ _ hHead m hFresh
    obtain ⟨m₂, hFresh₂, hOpened₂, hRest⟩ := ih (i + 1) m₁ hFresh₁
    rw [hCons]
    exact ⟨m₂, hFresh₂, hOpened₂.trans hOpened₁, hFirst.append hRest⟩

theorem Series.laysBefore (hNil : ∀ i, row i [] = [])
    (hCons : ∀ i a as, row i (a :: as) = spelled i a ++ row (i + 1) as)
    (hItem : ∀ i xs n a, item xs n a → LaysBefore n xs (spelled i a)) {as : List α}
    (h : Series item xs next as) (i : Nat) : LaysBefore next xs (row i as) := by
  induction h generalizing i with
  | nil =>
    intro m hFresh rest _
    rw [hNil]
    exact ⟨m, hFresh, rfl, rfl⟩
  | @cons xs ys next a as hHead _ ih =>
    intro m hFresh rest hNext
    have hFirst : first (ys ++ rest) (.mark .endOfInput) = first ys next := by
      rw [Terminal.first_append, hNext]
    obtain ⟨m₁, hFresh₁, hOpened₁, hHere⟩ := hItem i _ _ _ hHead m hFresh (ys ++ rest) hFirst
    obtain ⟨m₂, hFresh₂, hOpened₂, hLater⟩ := ih (i + 1) m₁ hFresh₁ rest hNext
    rw [hCons, List.append_assoc, hHere, hLater, ← List.append_assoc]
    exact ⟨m₂, hFresh₂, hOpened₂.trans hOpened₁, rfl⟩

end

/-- The statements in the form are laid out. -/
def Laying (form : List Terminal → Terminal → Stmt → Prop) : Prop :=
  ∀ xs next s, form xs next s → ∀ place, LaysBefore next xs (s.phrase .bare place).terminals

theorem Series.statements {form : List Terminal → Terminal → Stmt → Prop} (hForm : Laying form)
    {body : List Stmt} (h : Series form xs next body) (place : List Nat) :
    LaysBefore next xs (Stmt.phrases .bare place 0 body).terminals :=
  h.laysBefore (fun i s => (s.phrase .bare (i :: place)).terminals)
    (fun i body => (Stmt.phrases .bare place i body).terminals) (fun _ => rfl)
    (fun _ _ _ => rfl) (fun _ _ _ _ hs => hForm _ _ _ hs _) 0

/-- A closing brace after statements. -/
theorem tidy_brace {m : Margin} (hFresh : m.Fresh) (rest : List Terminal) :
    tidyFrom m (.mark .rightBrace :: rest) =
      .mark .rightBrace :: tidyFrom ⟨some .rightBrace, m.opened⟩ rest := by
  have hWritten : m.written (.mark .rightBrace) = [.mark .rightBrace] := by
    change m.missing ++ _ = _
    rw [hFresh.missing, List.nil_append]
  rw [tidyFrom, hWritten]
  rfl

theorem Braced.closed (hInner : Laying (g.declaration ctx)) {b : Block} (h : Braced g ctx xs b)
    (place : List Nat) : Closed xs (b.phrase .bare place).terminals := by
  obtain ⟨s, hBody⟩ := h
  have hRow := hBody.statements hInner place
  intro m rest
  obtain ⟨m', hFresh', hOpened', hTidies⟩ :=
    hRow ⟨some .leftBrace, m.opened⟩ rfl (.mark .rightBrace :: rest) rfl
  have hOpen : ∀ ts, tidyFrom m (.mark .leftBrace :: ts) =
      .mark .leftBrace :: tidyFrom ⟨some .leftBrace, m.opened⟩ ts :=
    Tidies.one rfl
  rw [List.cons_append, hOpen, List.append_assoc, List.singleton_append, hTidies,
    tidy_brace hFresh', hOpened']
  simp [Block.phrase]

theorem Condition.tidies (hInner : Spelling (g.expression ctx)) {e : Expr}
    (h : Condition g ctx xs e) {m : Margin} (hKeeps : m.keeps = true) (place : List Nat) :
    Tidies m xs (e.condition .bare place).terminals ⟨some .rightParen, m.opened⟩ := by
  obtain ⟨hInside⟩ := h
  obtain ⟨kind, -, hItem⟩ := hInner _ _ hInside ⟨some .leftParen, true :: m.opened⟩ place rfl
  exact .kept hKeeps hItem

/-! ### Definitions -/

theorem Listed.parameters {params : List Ident} (h : Listed Parameter xs params) (m : Margin)
    (hKeeps : m.keeps = false) :
    ∃ last, Tidies m xs (Ident.parameters params).terminals ⟨last, m.opened⟩ := by
  refine h.tidies (fun _ id => .one (.name id.name))
    (fun _ ids => ids.map fun id => .one (.name id.name)) (fun _ => rfl) (fun _ _ _ => rfl)
    (fun i xs id hId m _ => ?_) m hKeeps 0
  obtain ⟨id⟩ := hId
  exact ⟨_, .one rfl⟩

theorem Function.closed (hBlock : Laying (g.declaration ctx.func)) {f : FuncDef}
    (h : Function g ctx xs f) (place : List Nat) : Closed xs (f.phrase .bare place).terminals := by
  obtain ⟨id, s, hParams, -, hBody⟩ := h
  intro m
  obtain ⟨last, hNames⟩ := hParams.parameters ⟨some .leftParen, true :: m.opened⟩ rfl
  have hKept := Tidies.kept (m := ⟨some .identifier, m.opened⟩) rfl hNames
  have hAll := hKept.append (hBody.closed hBlock (0 :: place) ⟨some .rightParen, m.opened⟩)
  have hHead := Tidies.cons (m := m) (t := .mark .kwFunc) rfl
    (.cons (t := .name id.name) rfl hAll)
  simpa [FuncDef.phrase] using hHead

theorem Class.closed (hBlock : ∀ ctx, Laying (g.declaration ctx)) {c : ClassDef}
    (h : Class g ctx xs c) (place : List Nat) :
    Closed xs ((Stmt.cls c).phrase .bare place).terminals := by
  obtain @⟨xs, ys, parent, methods, next, id, s, hParent, hMethods⟩ := h
  have hRow := hMethods.lays (fun i f => (f.phrase .bare (i :: place)).terminals)
    (fun i fs => (FuncDef.phrases .bare place i fs).terminals) (fun _ => rfl) (fun _ _ _ => rfl)
    (fun i xs n f hf => (hf.closed (hBlock _) (i :: place)).lays) 0
  intro m
  obtain ⟨m', hFresh', hOpened', hBody⟩ := hRow ⟨some .leftBrace, m.opened⟩ rfl
  have hBrace : Tidies m' [.mark .rightBrace] [.mark .rightBrace] ⟨some .rightBrace, m.opened⟩ := by
    intro rest
    rw [← hOpened']
    exact tidy_brace hFresh' rest
  have hAfter : ∃ last, Tidies ⟨some .identifier, m.opened⟩ xs (Ident.superclass parent).terminals
      ⟨last, m.opened⟩ := by
    cases hParent with
    | none => exact ⟨_, .nil⟩
    | some parent => exact ⟨_, .cons (t := .mark .less) rfl (.one (t := .name parent.name) rfl)⟩
  obtain ⟨last, hSuper⟩ := hAfter
  have hBrackets := hSuper.append (Tidies.cons (t := .mark .leftBrace) rfl (hBody.append hBrace))
  have hAll := Tidies.cons (m := m) (t := .mark .kwClass) rfl
    (.cons (t := .name id.name) rfl hBrackets)
  simpa [Stmt.phrase] using hAll

/-! ### Simple statements -/

theorem leavesOpen_of_endsOperand {kind : TokenKind} (h : endsOperand kind = true) :
    leavesOpen kind = true := by
  cases kind <;> first | rfl | cases h

/-- The row is tidied to a statement without its semicolon. -/
def Pending (xs ys : List Terminal) : Prop :=
  ∀ m : Margin, m.keeps = false → ∃ kind, leavesOpen kind = true ∧
    Tidies m xs ys ⟨some kind, m.opened⟩

theorem Spells.pending {e : Expr} (h : Spells xs e) (place : List Nat) :
    Pending xs (e.phrase .bare place).terminals := by
  intro m hKeeps
  obtain ⟨kind, hEnds, hItem⟩ := h m place hKeeps
  exact ⟨kind, leavesOpen_of_endsOperand hEnds, hItem⟩

theorem Pending.cons {t : Terminal} (hPlain : isPlain t.kind = true)
    (hOpens : ∀ opened, (Margin.mk (some t.kind) opened).keeps = false) (h : Pending xs ys) :
    Pending (t :: xs) (t :: ys) := by
  intro m _
  obtain ⟨kind, hOpen, hRest⟩ := h ⟨some t.kind, m.opened⟩ (hOpens _)
  exact ⟨kind, hOpen, .cons hPlain hRest⟩

theorem Pending.two {t u : Terminal} (hPlain : isPlain t.kind = true)
    (hPlain' : isPlain u.kind = true) (hOpen : leavesOpen u.kind = true) :
    Pending [t, u] [t, u] :=
  fun _ _ => ⟨u.kind, hOpen, .cons hPlain (.one hPlain')⟩

theorem Plain.pending (hInner : Spelling (g.expression ctx)) {s : Simple} (h : Plain g ctx xs s)
    (place : List Nat) : Pending xs (s.phrase .bare place).terminals := by
  cases h with
  | declare => exact .two rfl rfl rfl
  | @var xs v id s hValue =>
    intro m _
    obtain ⟨kind, hOpen, hRest⟩ := (hInner _ _ hValue).pending (0 :: place)
      ⟨some .equal, m.opened⟩ rfl
    refine ⟨kind, hOpen, ?_⟩
    have hAll := Tidies.cons (m := m) (t := .mark .kwVar) rfl (.cons (t := .name id.name) rfl
      (.cons (t := .mark .equal) rfl hRest))
    simpa [Simple.phrase] using hAll
  | @const xs v id s hValue =>
    intro m _
    obtain ⟨kind, hOpen, hRest⟩ := (hInner _ _ hValue).pending (0 :: place)
      ⟨some .equal, m.opened⟩ rfl
    refine ⟨kind, hOpen, ?_⟩
    have hAll := Tidies.cons (m := m) (t := .mark .kwConst) rfl (.cons (t := .name id.name) rfl
      (.cons (t := .mark .equal) rfl hRest))
    simpa [Simple.phrase] using hAll
  | expr s hValue => exact (hInner _ _ hValue).pending (0 :: place)

/-- Where a semicolon may be left out it is put in. -/
theorem Terminated.tidy {kind : TokenKind} (hOpen : leavesOpen kind = true) {opened : List Bool}
    (h : Terminated ys next) {rest : List Terminal}
    (hNext : first rest (.mark .endOfInput) = next) :
    tidyFrom ⟨some kind, opened⟩ (ys ++ rest) =
      .mark .semicolon :: tidyFrom ⟨some .semicolon, opened⟩ rest := by
  have hMissing : (Margin.mk (some kind) opened).missing = [.mark .semicolon] := if_pos hOpen
  cases h with
  | semicolon => exact Tidies.one rfl rest
  | omitted hCloses =>
    rw [List.nil_append]
    cases rest with
    | nil =>
      rw [tidyFrom, hMissing]
      rfl
    | cons t rest =>
      obtain rfl : t = next := hNext
      have hWritten : (Margin.mk (some kind) opened).written t = [.mark .semicolon, t] ∧
          (Margin.mk (some .semicolon) opened).written t = [t] ∧
          (Margin.mk (some kind) opened).next t = (Margin.mk (some .semicolon) opened).next t := by
        unfold Margin.written Margin.next
        rcases hCloses with hKind | hKind
        · rw [hKind, hMissing]
          exact ⟨rfl, rfl, rfl⟩
        · rw [hKind, hMissing]
          exact ⟨rfl, rfl, rfl⟩
      obtain ⟨hFirst, hSecond, hSame⟩ := hWritten
      rw [tidyFrom, tidyFrom, hFirst, hSecond, hSame]
      rfl

theorem Pending.laysBefore {zs : List Terminal} (h : Pending xs zs) (hEnds : Terminated ys next) :
    LaysBefore next (xs ++ ys) (zs ++ [.mark .semicolon]) := by
  intro m hFresh rest hNext
  obtain ⟨kind, hOpen, hTidies⟩ := h m hFresh.keeps
  refine ⟨⟨some .semicolon, m.opened⟩, rfl, rfl, ?_⟩
  rw [List.append_assoc, hTidies, hEnds.tidy hOpen hNext, List.append_assoc]
  rfl

/-! ### Control flow -/

/-- The forms that stand one level further down are spelled and laid out. -/
structure Tidied (g : Forms) : Prop where
  expression : ∀ ctx, Spelling (g.expression ctx)
  operand : ∀ ctx, Spelling (g.operand ctx)
  declaration : ∀ ctx, Laying (g.declaration ctx)

theorem Arm.lays (hInner : Tidied g) {c : ElifClause} (h : Arm g ctx xs c) (i : Nat)
    (place : List Nat) : Lays xs (ElifClause.phrases .bare place i [c]).terminals := by
  obtain ⟨s, hCondition, hBody⟩ := h
  refine Closed.lays fun m => ?_
  have hHead := hCondition.tidies (hInner.expression ctx) (m := ⟨some .kwElif, m.opened⟩) rfl
    (0 :: i :: place)
  have hRest := hHead.append (hBody.closed (hInner.declaration ctx) (1 :: i :: place) _)
  have hAll := Tidies.cons (m := m) (t := .mark .kwElif) rfl hRest
  simpa [ElifClause.phrases] using hAll

theorem Statement.ifElse_lays (hInner : Tidied g) {ws zs : List Terminal} {after : Terminal}
    {c : Expr} {body : Block} {elifs : List ElifClause} {e : Option Block} (s : Option Span)
    (hCondition : Condition g ctx ws c) (hBody : Braced g ctx xs body)
    (hElifs : Series (fun vs _ => Arm g ctx vs) ys after elifs)
    (hOtherwise : Optional (ElseArm g ctx) zs e) (place : List Nat) :
    Lays (.mark .kwIf :: (ws ++ (xs ++ (ys ++ zs))))
      ((Stmt.ifElse c body elifs e s).phrase .bare place).terminals := by
  intro m _
  have hHead := hCondition.tidies (hInner.expression ctx) (m := ⟨some .kwIf, m.opened⟩) rfl
    (0 :: place)
  have hBlock := hBody.closed (hInner.declaration ctx) (1 :: place) ⟨some .rightParen, m.opened⟩
  have hArms := hElifs.lays (fun i c => (ElifClause.phrases .bare place i [c]).terminals)
    (fun i cs => (ElifClause.phrases .bare place i cs).terminals) (fun _ => rfl)
    (fun i c cs => by
      obtain ⟨c, b, s⟩ := c
      simp [ElifClause.phrases])
    (fun i _ _ _ hArm => hArm.lays hInner i place) 3
  obtain ⟨m', hFresh', hOpened', hArms⟩ := hArms ⟨some .rightBrace, m.opened⟩ rfl
  have hStart := Tidies.cons (m := m) (t := .mark .kwIf) rfl
    (hHead.append (hBlock.append hArms))
  cases hOtherwise with
  | none =>
    refine ⟨m', hFresh', hOpened', ?_⟩
    simpa [Stmt.phrase, Block.elsePhrase] using hStart
  | some hForm =>
    obtain ⟨hBody⟩ := hForm
    have hLast := hBody.closed (hInner.declaration ctx) (2 :: place) ⟨some .kwElse, m'.opened⟩
    have hAll := hStart.append (.cons (t := .mark .kwElse) rfl hLast)
    refine ⟨⟨some .rightBrace, m'.opened⟩, rfl, hOpened', ?_⟩
    simpa [Stmt.phrase, Block.elsePhrase] using hAll

theorem Optional.expression {form : List Terminal → Expr → Prop} (hForm : Spelling form)
    {e : Option Expr} (h : Optional form xs e) {m : Margin} (hKeeps : m.keeps = false)
    (place : List Nat) :
    ∃ last, Tidies m xs (Expr.optional .bare place e).terminals ⟨last, m.opened⟩ := by
  cases h with
  | none => exact ⟨m.last, .nil⟩
  | some h =>
    obtain ⟨kind, -, hItem⟩ := hForm _ _ h m place hKeeps
    exact ⟨_, hItem⟩

theorem Optional.simple (hInner : Spelling (g.expression ctx)) {i : Option Simple}
    (h : Optional (Plain g ctx) xs i) {m : Margin} (hKeeps : m.keeps = false)
    (place : List Nat) :
    ∃ last, Tidies m xs (Simple.optional .bare place i).terminals ⟨last, m.opened⟩ := by
  cases h with
  | none => exact ⟨m.last, .nil⟩
  | some h =>
    obtain ⟨kind, -, hItem⟩ := h.pending hInner place m hKeeps
    exact ⟨_, hItem⟩

theorem Statement.forLoop_closed (hInner : Tidied g) {ws zs : List Terminal} {i : Option Simple}
    {c u : Option Expr} {body : Block} (s : Option Span) (hStart : Optional (Plain g ctx) ws i)
    (hCondition : Optional (g.expression ctx) xs c) (hUpdate : Optional (g.expression ctx) ys u)
    (hBody : Braced g ctx.loop zs body) (place : List Nat) :
    Closed (.mark .kwFor :: .mark .leftParen ::
        (ws ++ .mark .semicolon :: (xs ++ .mark .semicolon :: (ys ++ .mark .rightParen :: zs))))
      ((Stmt.forLoop i c u body s).phrase .bare place).terminals := by
  intro m
  obtain ⟨last, hFirst⟩ := hStart.simple (hInner.expression ctx)
    (m := ⟨some .leftParen, true :: m.opened⟩) rfl (0 :: place)
  obtain ⟨last', hSecond⟩ := hCondition.expression (hInner.expression ctx)
    (m := ⟨some .semicolon, true :: m.opened⟩) rfl (1 :: place)
  obtain ⟨last'', hThird⟩ := hUpdate.expression (hInner.expression ctx)
    (m := ⟨some .semicolon, true :: m.opened⟩) rfl (2 :: place)
  have hClauses := hFirst.append (.cons (t := .mark .semicolon) rfl
    (hSecond.append (.cons (t := .mark .semicolon) rfl hThird)))
  have hKept := Tidies.kept (m := ⟨some .kwFor, m.opened⟩) rfl hClauses
  have hBlock := hBody.closed (hInner.declaration _) (3 :: place) ⟨some .rightParen, m.opened⟩
  have hAll := Tidies.cons (m := m) (t := .mark .kwFor) rfl (hKept.append hBlock)
  simpa [Stmt.phrase] using hAll

theorem Statement.tryCatch_closed (hInner : Tidied g) {body handler : Block} (param : Ident)
    (s : Option Span) (hBody : Braced g ctx xs body) (hHandler : Braced g ctx ys handler)
    (place : List Nat) :
    Closed (.mark .kwTry ::
        (xs ++ .mark .kwCatch :: .mark .leftParen :: .name param.name :: .mark .rightParen :: ys))
      ((Stmt.tryCatch body param handler s).phrase .bare place).terminals := by
  intro m
  have hFirst := hBody.closed (hInner.declaration _) (0 :: place) ⟨some .kwTry, m.opened⟩
  have hName : Tidies ⟨some .leftParen, true :: m.opened⟩ [.name param.name] [.name param.name]
      ⟨some .identifier, true :: m.opened⟩ := .one rfl
  have hKept := Tidies.kept (m := ⟨some .kwCatch, m.opened⟩) rfl hName
  have hSecond := hHandler.closed (hInner.declaration _) (1 :: place) ⟨some .rightParen, m.opened⟩
  have hAll := Tidies.cons (m := m) (t := .mark .kwTry) rfl
    (hFirst.append (.cons (t := .mark .kwCatch) rfl (hKept.append hSecond)))
  simpa [Stmt.phrase] using hAll

theorem Optional.returned (hInner : Spelling (g.expression ctx)) {e : Option Expr}
    (h : Optional (g.expression ctx) xs e) (place : List Nat) :
    Pending (.mark .kwReturn :: xs)
      (.mark .kwReturn :: (Expr.optional .bare place e).terminals) := by
  cases h with
  | none => exact fun _ _ => ⟨.kwReturn, rfl, .one rfl⟩
  | some hForm => exact ((hInner _ _ hForm).pending place).cons rfl fun _ => rfl

theorem Statement.lays (hInner : Tidied g) {s : Stmt} (h : Statement g ctx xs next s)
    (place : List Nat) : LaysBefore next xs (s.phrase .bare place).terminals := by
  cases h with
  | simple hPlain hEnds =>
    exact (hPlain.pending (hInner.expression ctx) place).laysBefore hEnds
  | func hFunc => exact (hFunc.closed (hInner.declaration _) place).lays.before
  | cls hCls => exact (hCls.closed hInner.declaration place).lays.before
  | block hBraced => exact (hBraced.closed (hInner.declaration _) place).lays.before
  | ifElse s hCondition hBody hElifs hOtherwise =>
    exact (ifElse_lays hInner s hCondition hBody hElifs hOtherwise place).before
  | whileLoop s hCondition hBody =>
    refine Lays.before (Closed.lays fun m => ?_)
    have hHead := hCondition.tidies (hInner.expression ctx) (m := ⟨some .kwWhile, m.opened⟩) rfl
      (0 :: place)
    have hRest := hHead.append (hBody.closed (hInner.declaration _) (1 :: place) _)
    have hAll := Tidies.cons (m := m) (t := .mark .kwWhile) rfl hRest
    simpa [Stmt.phrase] using hAll
  | forLoop s hStart hCondition hUpdate hBody =>
    exact (forLoop_closed hInner s hStart hCondition hUpdate hBody place).lays.before
  | breakLoop s _ hEnds =>
    have hWord : Pending [.mark .kwBreak] [.mark .kwBreak] := fun _ _ => ⟨.kwBreak, rfl, .one rfl⟩
    exact hWord.laysBefore hEnds
  | continueLoop s _ hEnds =>
    have hWord : Pending [.mark .kwContinue] [.mark .kwContinue] :=
      fun _ _ => ⟨.kwContinue, rfl, .one rfl⟩
    exact hWord.laysBefore hEnds
  | ret s _ hValue hEnds =>
    have hAll := (hValue.returned (hInner.expression ctx) (0 :: place)).laysBefore hEnds
    simpa [Stmt.phrase] using hAll
  | tryCatch param s hBody hHandler =>
    exact (tryCatch_closed hInner param s hBody hHandler place).lays.before
  | throw s hValue hEnds =>
    have hWord := ((hInner.expression ctx _ _ hValue).pending (0 :: place)).cons
      (t := .mark .kwThrow) rfl fun _ => rfl
    simpa [Stmt.phrase] using hWord.laysBefore hEnds

end Form

/-! ## Levels and programs -/

theorem forms_tidied (room : Nat) : Form.Tidied (forms room) := by
  induction room with
  | zero => exact ⟨nofun, nofun, nofun⟩
  | succ room ih =>
    exact ⟨fun ctx => Form.Expression.spells (ih.expression ctx) (ih.operand ctx),
      fun ctx => Form.Unary.spells (ih.expression ctx) (ih.operand ctx),
      fun _ _ _ _ h place => h.lays ih place⟩

/-- A row that spells a program is in canonical form the program without parentheses. -/
theorem Form.Whole.tidy_eq {xs : List Terminal} {p : Program} (h : Form.Whole xs p) :
    Terminal.tidy xs = (p.phrase .bare).terminals := by
  have hSeries :
      Form.Series ((forms maxNesting).declaration .top) xs (.mark .endOfInput) p.body := h
  obtain ⟨m, hFresh, -, hTidies⟩ :=
    hSeries.statements ((forms_tidied maxNesting).declaration .top) [] ⟨none, []⟩ rfl [] rfl
  rw [List.append_nil, tidyFrom, hFresh.missing, List.append_nil] at hTidies
  exact hTidies

/-- A parsed program is written with the terminals it was read from, in their order, but for the
parentheses that only group and the semicolons that were left out; and every construct stands where
it may. -/
theorem Program.canonical_of_stream {stream : TokenStream} {p : Program}
    (hSpelled : ∀ t ∈ stream.tokens, t.Spelled) (h : ofStream? stream = .ok p) :
    Terminal.tidy stream.terminals = (p.phrase .bare).terminals ∧ Node.Placed .top (.program p) :=
  ⟨(whole_of_stream h).tidy_eq, placed_of_stream hSpelled h⟩

/-- A name in parentheses, without a semicolon after it. -/
theorem Program.canonical_of_stream_grouped : ∃ (stream : TokenStream) (p : Program),
    (∀ t ∈ stream.tokens, t.Spelled) ∧ ofStream? stream = .ok p ∧
      stream.terminals = [.mark .leftParen, .name "a", .mark .rightParen] ∧
      (p.phrase .bare).terminals = [.name "a", .mark .semicolon] ∧
      Terminal.tidy stream.terminals = (p.phrase .bare).terminals ∧
      Node.Placed .top (.program p) := by
  refine ⟨⟨[⟨.leftParen, "(", ⟨1, 1⟩, none⟩, ⟨.identifier, "a", ⟨1, 2⟩, none⟩,
    ⟨.rightParen, ")", ⟨1, 3⟩, none⟩, .eof ⟨1, 4⟩], none⟩, _, ?spelled, rfl, rfl, rfl,
    canonical_of_stream ?spelled rfl⟩
  case spelled =>
    simp only [List.forall_mem_cons, Token.Spelled]
    exact ⟨nofun, fun _ => by decide +kernel, nofun, nofun, nofun⟩

end Tern
