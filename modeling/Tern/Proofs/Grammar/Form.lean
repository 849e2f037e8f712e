import Tern.Grammar.Statement
import Tern.Proofs.Syntax.Placement
import Tern.Proofs.Token.Terminal

/-!
# The grammar

Which terminals spell which trees. Each form of the grammar is a relation between a row of
terminals and a tree with any spans; where a semicolon may be left out, the terminal that follows
the row has a say. As in the parser, forms that may stand in themselves do so one level further
down, so `forms` is a tower of levels.

The conditions under which a construct may stand in its surroundings are part of the grammar.

* `Form.Expression`, `Form.Statement`: the forms of a level, given those further down;
* `Form.tierOf`: how tightly the kinds that continue an expression bind;
* `Form.Opens`: with what expressions and statements begin;
* `Form.Series.closes`: what closes a row of statements;
* `forms`: the levels, and `Form.Whole` the programs.
-/

namespace Tern

open Terminal (first)

/-- The forms that stand one level further down. -/
structure Forms where
  expression : Context → List Terminal → Expr → Prop
  operand : Context → List Terminal → Expr → Prop
  declaration : Context → List Terminal → Terminal → Stmt → Prop

namespace Form

/-! ## Rows -/

section

variable {α : Type}

/-- Rounds that each make something new of what was there before. -/
inductive Rounds (round : α → List Terminal → α → Prop) : α → List Terminal → α → Prop where
  | done {a : α} : Rounds round a [] a
  | more {xs ys : List Terminal} {a b c : α} (hNow : round a xs b) (hLater : Rounds round b ys c) :
      Rounds round a (xs ++ ys) c

/-- Something and the rounds after it. -/
def Chained (start : List Terminal → α → Prop) (round : α → List Terminal → α → Prop)
    (xs : List Terminal) (a : α) : Prop :=
  ∃ ys zs b, xs = ys ++ zs ∧ start ys b ∧ Rounds round b zs a

/-- Items in a row, each followed by the next one or by what follows them all. -/
inductive Series (item : List Terminal → Terminal → α → Prop) :
    List Terminal → Terminal → List α → Prop where
  | nil {next : Terminal} : Series item [] next []
  | cons {xs ys : List Terminal} {next : Terminal} {a : α} {as : List α}
      (hHead : item xs (first ys next) a) (hTail : Series item ys next as) :
      Series item (xs ++ ys) next (a :: as)

/-- Items with a comma before each of them. -/
inductive AfterCommas (item : List Terminal → α → Prop) : List Terminal → List α → Prop where
  | nil : AfterCommas item [] []
  | cons {xs ys : List Terminal} {a : α} {as : List α} (hHead : item xs a)
      (hTail : AfterCommas item ys as) :
      AfterCommas item (.mark .comma :: (xs ++ ys)) (a :: as)

/-- Items with commas between them. -/
inductive Listed (item : List Terminal → α → Prop) : List Terminal → List α → Prop where
  | nil : Listed item [] []
  | cons {xs ys : List Terminal} {a : α} {as : List α} (hHead : item xs a)
      (hTail : AfterCommas item ys as) : Listed item (xs ++ ys) (a :: as)

theorem Rounds.snoc {round : α → List Terminal → α → Prop} {a b c : α} {xs ys : List Terminal}
    (h : Rounds round a xs b) (hRound : round b ys c) : Rounds round a (xs ++ ys) c := by
  induction h with
  | done => simpa using Rounds.more hRound .done
  | more hNow _ ih =>
    rw [List.append_assoc]
    exact .more hNow (ih hRound)

theorem Series.snoc {item : List Terminal → Terminal → α → Prop} {xs ys : List Terminal}
    {next : Terminal} {as : List α} {a : α} (h : Series item xs (first ys next) as)
    (hItem : item ys next a) : Series item (xs ++ ys) next (as ++ [a]) := by
  generalize hNext : first ys next = n at h
  induction h with
  | nil =>
    have hOne : Series item (ys ++ []) next [a] := .cons hItem .nil
    simpa using hOne
  | @cons xs zs _ b bs hHead _ ih =>
    subst hNext
    have hLater : Series item (xs ++ (zs ++ ys)) next (b :: (bs ++ [a])) :=
      .cons (by simpa using hHead) (ih rfl)
    simpa using hLater

theorem AfterCommas.snoc {item : List Terminal → α → Prop} {xs ys : List Terminal} {as : List α}
    {a : α} (h : AfterCommas item xs as) (hItem : item ys a) :
    AfterCommas item (xs ++ .mark .comma :: ys) (as ++ [a]) := by
  induction h with
  | nil => simpa using AfterCommas.cons hItem .nil
  | cons hHead _ ih => simpa using AfterCommas.cons hHead ih

end

/-! ## Operators and suffixes -/

/-- The tier of a kind that continues an expression: the strength with which it binds what stands
before it. Other kinds have tier zero. -/
def tierOf : TokenKind → Nat
  | .equal => 1
  | .pipePipe => 2
  | .andAnd => 3
  | .equalEqual | .bangEqual => 4
  | .less | .lessEqual | .greater | .greaterEqual => 5
  | .plus | .minus => 6
  | .star | .slash | .percent => 7
  | .leftParen | .dot | .leftBracket => 9
  | _ => 0

/-- What the kinds of one tier, and no others, stand for. -/
structure OfTier {β : Type} (wanted : TokenKind → Option β) (tier : Nat) : Prop where
  pos : 0 < tier
  isSome : ∀ kind, (wanted kind).isSome = (tierOf kind == tier)

theorem isMark_of_tier {kind : TokenKind} (h : tierOf kind ≠ 0) :
    Terminal.isMark kind = true := by
  cases kind <;> first | rfl | exact absurd rfl h

theorem OfTier.tier_eq {β : Type} {wanted : TokenKind → Option β} {tier : Nat}
    (h : OfTier wanted tier) {kind : TokenKind} {b : β} (hb : wanted kind = some b) :
    tierOf kind = tier := by
  have hSome := h.isSome kind
  rw [hb] at hSome
  exact eq_of_beq hSome.symm

theorem OfTier.isMark {β : Type} {wanted : TokenKind → Option β} {tier : Nat}
    (h : OfTier wanted tier) {kind : TokenKind} {b : β} (hb : wanted kind = some b) :
    Terminal.isMark kind = true := by
  refine isMark_of_tier ?_
  rw [h.tier_eq hb]
  exact Nat.ne_of_gt h.pos

theorem OfTier.eq_none {β : Type} {wanted : TokenKind → Option β} {tier : Nat}
    (h : OfTier wanted tier) {kind : TokenKind} (hTier : tierOf kind ≠ tier) :
    wanted kind = none := by
  have hSome := h.isSome kind
  rw [beq_eq_false_iff_ne.mpr hTier] at hSome
  exact Option.not_isSome_iff_eq_none.mp (by simp [hSome])

theorem ofTier_suffix : OfTier Grammar.Suffix.ofKind 9 :=
  ⟨by decide, fun kind => by cases kind <;> rfl⟩

theorem ofTier_factor : OfTier Grammar.factorOp 7 :=
  ⟨by decide, fun kind => by cases kind <;> rfl⟩

theorem ofTier_term : OfTier Grammar.termOp 6 :=
  ⟨by decide, fun kind => by cases kind <;> rfl⟩

theorem ofTier_comparison : OfTier Grammar.comparisonOp 5 :=
  ⟨by decide, fun kind => by cases kind <;> rfl⟩

theorem ofTier_equality : OfTier Grammar.equalityOp 4 :=
  ⟨by decide, fun kind => by cases kind <;> rfl⟩

theorem ofTier_and : OfTier Grammar.andOp 3 :=
  ⟨by decide, fun kind => by cases kind <;> rfl⟩

theorem ofTier_or : OfTier Grammar.orOp 2 :=
  ⟨by decide, fun kind => by cases kind <;> rfl⟩

/-! ## Expressions -/

section

variable (inner : Forms) (ctx : Context)

/-- The expressions that bind tightest. -/
inductive Primary : List Terminal → Expr → Prop where
  | number (x : Float) (s : Option Span) : Primary [.number x] (.number x s)
  | string (v : String) (s : Option Span) : Primary [.text v] (.string v s)
  | boolean (v : Bool) (s : Option Span) :
      Primary [.mark (if v then .kwTrue else .kwFalse)] (.boolean v s)
  | null (s : Option Span) : Primary [.mark .kwNull] (.null s)
  | this (s : Option Span) (hEnclosed : ctx.enclosing ≠ none) :
      Primary [.mark .kwThis] (.this s)
  | super (m : Ident) (s : Option Span) (hDerived : ctx.enclosing = some true) :
      Primary [.mark .kwSuper, .mark .dot, .name m.name] (.super m s)
  | name (id : Ident) : Primary [.name id.name] (.name id)
  | grouped {xs : List Terminal} {e : Expr} (hInside : inner.expression ctx xs e) :
      Primary (.mark .leftParen :: (xs ++ [.mark .rightParen])) e
  | array {xs : List Terminal} {es : List Expr} (s : Option Span)
      (hItems : Listed (inner.expression ctx) xs es) :
      Primary (.mark .leftBracket :: (xs ++ [.mark .rightBracket])) (.array es s)

/-- An expression with one more suffix. -/
inductive Suffixed : Expr → List Terminal → Expr → Prop where
  | call {f : Expr} {xs : List Terminal} {args : List Expr} (s : Option Span)
      (hItems : Listed (inner.expression ctx) xs args) :
      Suffixed f (.mark .leftParen :: (xs ++ [.mark .rightParen])) (.call f args s)
  | member {o : Expr} (m : Ident) (s : Option Span) :
      Suffixed o [.mark .dot, .name m.name] (.member o m s)
  | index {o i : Expr} {xs : List Terminal} (s : Option Span)
      (hInside : inner.expression ctx xs i) :
      Suffixed o (.mark .leftBracket :: (xs ++ [.mark .rightBracket])) (.index o i s)

/-- A primary expression and its suffixes. -/
def Called : List Terminal → Expr → Prop := Chained (Primary inner ctx) (Suffixed inner ctx)

/-- A prefix operator and its operand, or a call. -/
inductive Unary : List Terminal → Expr → Prop where
  | operator {kind : TokenKind} {op : UnaryOp} {xs : List Terminal} {e : Expr} (s : Option Span)
      (hIsOp : Grammar.unaryOp kind = some op) (hOperand : inner.operand ctx xs e) :
      Unary (.mark kind :: xs) (.unary op e s)
  | call {xs : List Terminal} {e : Expr} (hCall : Called inner ctx xs e) : Unary xs e

/-- An expression with one more operand on its right. -/
inductive Joined {β : Type} (op : TokenKind → Option β)
    (join : β → Expr → Expr → Option Span → Expr) (operand : List Terminal → Expr → Prop) :
    Expr → List Terminal → Expr → Prop where
  | mk {kind : TokenKind} {b : β} {l r : Expr} {xs : List Terminal} (s : Option Span)
      (hIsOp : op kind = some b) (hRight : operand xs r) :
      Joined op join operand l (.mark kind :: xs) (join b l r s)

/-- Operands joined by operators of one tier, grouped from the left. -/
def LeftAssoc {β : Type} (op : TokenKind → Option β)
    (join : β → Expr → Expr → Option Span → Expr) (operand : List Terminal → Expr → Prop) :
    List Terminal → Expr → Prop :=
  Chained operand (Joined op join operand)

/-- Products, quotients and remainders. -/
def Factor : List Terminal → Expr → Prop := LeftAssoc Grammar.factorOp .binary (Unary inner ctx)

/-- Sums and differences. -/
def Term : List Terminal → Expr → Prop := LeftAssoc Grammar.termOp .binary (Factor inner ctx)

/-- Order comparisons. -/
def Comparison : List Terminal → Expr → Prop :=
  LeftAssoc Grammar.comparisonOp .binary (Term inner ctx)

/-- Equality comparisons. -/
def Equality : List Terminal → Expr → Prop :=
  LeftAssoc Grammar.equalityOp .binary (Comparison inner ctx)

/-- Conjunctions. -/
def LogicAnd : List Terminal → Expr → Prop :=
  LeftAssoc Grammar.andOp .logical (Equality inner ctx)

/-- Disjunctions. -/
def LogicOr : List Terminal → Expr → Prop := LeftAssoc Grammar.orOp .logical (LogicAnd inner ctx)

/-- An assignment, or whatever binds tighter. -/
inductive Expression : List Terminal → Expr → Prop where
  | value {xs : List Terminal} {e : Expr} (hValue : LogicOr inner ctx xs e) : Expression xs e
  | assign {xs ys : List Terminal} {target value e : Expr} (s : Option Span)
      (hTarget : LogicOr inner ctx xs target) (hValue : inner.expression ctx ys value)
      (hAssigns : Grammar.assignTo? target value s = some e) :
      Expression (xs ++ .mark .equal :: ys) e

/-! ## Statements -/

/-- Whether a terminal closes a row of statements. -/
def Closes (next : Terminal) : Prop := next.kind = .rightBrace ∨ next.kind = .endOfInput

/-- The end of a simple statement: a semicolon, which may be left out before a closing brace or
the end of input. -/
inductive Terminated : List Terminal → Terminal → Prop where
  | semicolon {next : Terminal} : Terminated [.mark .semicolon] next
  | omitted {next : Terminal} (hCloses : Closes next) : Terminated [] next

/-- Statements in braces. -/
inductive Braced : List Terminal → Block → Prop where
  | mk {xs : List Terminal} {body : List Stmt} (s : Option Span)
      (hBody : Series (inner.declaration ctx) xs (.mark .rightBrace) body) :
      Braced (.mark .leftBrace :: (xs ++ [.mark .rightBrace])) ⟨body, s⟩

/-- A condition in parentheses. -/
inductive Condition : List Terminal → Expr → Prop where
  | mk {xs : List Terminal} {e : Expr} (hInside : inner.expression ctx xs e) :
      Condition (.mark .leftParen :: (xs ++ [.mark .rightParen])) e

/-- The name of a parameter. -/
inductive Parameter : List Terminal → Ident → Prop where
  | mk (id : Ident) : Parameter [.name id.name] id

/-- A function or a method. -/
inductive Function : List Terminal → FuncDef → Prop where
  | mk {xs ys : List Terminal} {params : List Ident} {body : Block} (id : Ident)
      (s : Option Span) (hParams : Listed Parameter xs params)
      (hFresh : (params.map (·.name)).Nodup) (hBody : Braced inner ctx.func ys body) :
      Function
        (.mark .kwFunc :: .name id.name :: .mark .leftParen ::
          (xs ++ .mark .rightParen :: ys)) ⟨id, params, body, s⟩

/-- The superclass of a class, if one is named. -/
inductive Superclass (id : Ident) : List Terminal → Option Ident → Prop where
  | none : Superclass id [] none
  | some (parent : Ident) (hOther : parent.name ≠ id.name) :
      Superclass id [.mark .less, .name parent.name] (some parent)

/-- A class. -/
inductive Class : List Terminal → ClassDef → Prop where
  | mk {xs ys : List Terminal} {parent : Option Ident} {methods : List FuncDef} {next : Terminal}
      (id : Ident) (s : Option Span) (hParent : Superclass id xs parent)
      (hMethods : Series (fun zs _ => Function inner (ctx.cls parent.isSome) zs) ys next methods) :
      Class
        (.mark .kwClass :: .name id.name ::
          (xs ++ .mark .leftBrace :: (ys ++ [.mark .rightBrace])))
        ⟨id, parent, methods, s⟩

/-- A simple statement, without the semicolon after it. -/
inductive Plain : List Terminal → Simple → Prop where
  | declare (id : Ident) (s : Option Span) :
      Plain [.mark .kwVar, .name id.name] (.var id none s)
  | var {xs : List Terminal} {v : Expr} (id : Ident) (s : Option Span)
      (hValue : inner.expression ctx xs v) :
      Plain (.mark .kwVar :: .name id.name :: .mark .equal :: xs) (.var id (some v) s)
  | const {xs : List Terminal} {v : Expr} (id : Ident) (s : Option Span)
      (hValue : inner.expression ctx xs v) :
      Plain (.mark .kwConst :: .name id.name :: .mark .equal :: xs) (.const id v s)
  | expr {xs : List Terminal} {e : Expr} (s : Option Span) (hValue : inner.expression ctx xs e) :
      Plain xs (.expr e s)

/-- Something that may be missing. -/
inductive Optional {α : Type} (form : List Terminal → α → Prop) :
    List Terminal → Option α → Prop where
  | none : Optional form [] none
  | some {xs : List Terminal} {a : α} (hForm : form xs a) : Optional form xs (some a)

/-- An `elif` arm. -/
inductive Arm : List Terminal → ElifClause → Prop where
  | mk {xs ys : List Terminal} {c : Expr} {body : Block} (s : Option Span)
      (hCondition : Condition inner ctx xs c) (hBody : Braced inner ctx ys body) :
      Arm (.mark .kwElif :: (xs ++ ys)) ⟨c, body, s⟩

/-- The last arm of an `if`. -/
inductive ElseArm : List Terminal → Block → Prop where
  | mk {xs : List Terminal} {body : Block} (hBody : Braced inner ctx xs body) :
      ElseArm (.mark .kwElse :: xs) body

/-- A statement. -/
inductive Statement : List Terminal → Terminal → Stmt → Prop where
  | simple {xs ys : List Terminal} {next : Terminal} {s : Simple} (hPlain : Plain inner ctx xs s)
      (hEnds : Terminated ys next) : Statement (xs ++ ys) next (.simple s)
  | func {xs : List Terminal} {next : Terminal} {f : FuncDef} (hFunc : Function inner ctx xs f) :
      Statement xs next (.func f)
  | cls {xs : List Terminal} {next : Terminal} {c : ClassDef} (hCls : Class inner ctx xs c) :
      Statement xs next (.cls c)
  | block {xs : List Terminal} {next : Terminal} {b : Block} (hBraced : Braced inner ctx xs b) :
      Statement xs next (.block b)
  | ifElse {ws xs ys zs : List Terminal} {next after : Terminal} {c : Expr} {body : Block}
      {elifs : List ElifClause} {e : Option Block} (s : Option Span)
      (hCondition : Condition inner ctx ws c) (hBody : Braced inner ctx xs body)
      (hElifs : Series (fun vs _ => Arm inner ctx vs) ys after elifs)
      (hOtherwise : Optional (ElseArm inner ctx) zs e) :
      Statement (.mark .kwIf :: (ws ++ (xs ++ (ys ++ zs)))) next (.ifElse c body elifs e s)
  | whileLoop {xs ys : List Terminal} {next : Terminal} {c : Expr} {body : Block}
      (s : Option Span) (hCondition : Condition inner ctx xs c)
      (hBody : Braced inner ctx.loop ys body) :
      Statement (.mark .kwWhile :: (xs ++ ys)) next (.whileLoop c body s)
  | forLoop {ws xs ys zs : List Terminal} {next : Terminal} {i : Option Simple}
      {c u : Option Expr} {body : Block} (s : Option Span)
      (hStart : Optional (Plain inner ctx) ws i)
      (hCondition : Optional (inner.expression ctx) xs c)
      (hUpdate : Optional (inner.expression ctx) ys u) (hBody : Braced inner ctx.loop zs body) :
      Statement
        (.mark .kwFor :: .mark .leftParen ::
          (ws ++ .mark .semicolon :: (xs ++ .mark .semicolon :: (ys ++ .mark .rightParen :: zs))))
        next (.forLoop i c u body s)
  | breakLoop {xs : List Terminal} {next : Terminal} (s : Option Span) (hInLoop : ctx.inLoop = true)
      (hEnds : Terminated xs next) : Statement (.mark .kwBreak :: xs) next (.breakLoop s)
  | continueLoop {xs : List Terminal} {next : Terminal} (s : Option Span)
      (hInLoop : ctx.inLoop = true) (hEnds : Terminated xs next) :
      Statement (.mark .kwContinue :: xs) next (.continueLoop s)
  | ret {xs ys : List Terminal} {next : Terminal} {e : Option Expr} (s : Option Span)
      (hInFunction : ctx.inFunction = true) (hValue : Optional (inner.expression ctx) xs e)
      (hEnds : Terminated ys next) : Statement (.mark .kwReturn :: (xs ++ ys)) next (.ret e s)
  | tryCatch {xs ys : List Terminal} {next : Terminal} {body handler : Block} (param : Ident)
      (s : Option Span) (hBody : Braced inner ctx xs body)
      (hHandler : Braced inner ctx ys handler) :
      Statement
        (.mark .kwTry ::
          (xs ++ .mark .kwCatch :: .mark .leftParen :: .name param.name :: .mark .rightParen :: ys))
        next (.tryCatch body param handler s)
  | throw {xs ys : List Terminal} {next : Terminal} {e : Expr} (s : Option Span)
      (hValue : inner.expression ctx xs e) (hEnds : Terminated ys next) :
      Statement (.mark .kwThrow :: (xs ++ ys)) next (.throw e s)

end

/-! ## First terminals -/

/-- A row that begins with a terminal of a suitable kind. -/
def Opens (suitable : TokenKind → Bool) (xs : List Terminal) : Prop :=
  ∃ t ts, xs = t :: ts ∧ suitable t.kind = true

/-- The kinds with which expressions begin. -/
def opensExpression : TokenKind → Bool
  | .number | .string | .kwTrue | .kwFalse | .kwNull | .kwThis | .kwSuper | .identifier
  | .leftParen | .leftBracket | .bang | .minus => true
  | _ => false

/-- The kinds with which statements begin. -/
def opensStatement : TokenKind → Bool
  | .kwClass | .kwFunc | .kwVar | .kwConst | .kwIf | .kwWhile | .kwFor | .kwBreak | .kwContinue
  | .kwReturn | .kwTry | .kwThrow | .leftBrace => true
  | kind => opensExpression kind

variable {inner : Forms} {ctx : Context} {xs ys : List Terminal} {next : Terminal}
  {suitable : TokenKind → Bool}

theorem Opens.append (h : Opens suitable xs) : Opens suitable (xs ++ ys) := by
  obtain ⟨t, ts, rfl, ht⟩ := h
  exact ⟨t, ts ++ ys, rfl, ht⟩

theorem Opens.mono {other : TokenKind → Bool} (h : Opens suitable xs)
    (hImp : ∀ kind, suitable kind = true → other kind = true) : Opens other xs := by
  obtain ⟨t, ts, rfl, ht⟩ := h
  exact ⟨t, ts, rfl, hImp _ ht⟩

theorem Opens.first (h : Opens suitable xs) : suitable (first xs next).kind = true := by
  obtain ⟨t, ts, rfl, ht⟩ := h
  exact ht

theorem Opens.ne_nil (h : Opens suitable xs) : xs ≠ [] := by
  obtain ⟨t, ts, rfl, -⟩ := h
  exact List.cons_ne_nil _ _

theorem Chained.opens {start : List Terminal → Expr → Prop}
    {round : Expr → List Terminal → Expr → Prop} {e : Expr}
    (hStart : ∀ xs e, start xs e → Opens suitable xs) (h : Chained start round xs e) :
    Opens suitable xs := by
  obtain ⟨ys, zs, b, rfl, hFirst, -⟩ := h
  exact (hStart ys b hFirst).append

theorem Primary.opens {e : Expr} (h : Primary inner ctx xs e) : Opens opensExpression xs := by
  cases h with
  | boolean v => cases v <;> exact ⟨_, _, rfl, rfl⟩
  | _ => exact ⟨_, _, rfl, rfl⟩

theorem Unary.opens {e : Expr} (h : Unary inner ctx xs e) : Opens opensExpression xs := by
  cases h with
  | @operator kind _ _ _ s hIsOp hOperand =>
    refine ⟨_, _, rfl, ?_⟩
    cases kind <;> first | rfl | cases hIsOp
  | call hCall => exact hCall.opens fun _ _ h => h.opens

theorem LogicOr.opens {e : Expr} (h : LogicOr inner ctx xs e) : Opens opensExpression xs := by
  -- Disjunctions, conjunctions, equalities, comparisons, sums and products, from the outside in.
  refine Chained.opens (fun _ _ h => ?_) h
  refine Chained.opens (fun _ _ h => ?_) h
  refine Chained.opens (fun _ _ h => ?_) h
  refine Chained.opens (fun _ _ h => ?_) h
  refine Chained.opens (fun _ _ h => ?_) h
  exact Chained.opens (fun _ _ h => h.opens) h

theorem Expression.opens {e : Expr} (h : Expression inner ctx xs e) :
    Opens opensExpression xs := by
  cases h with
  | value hValue => exact LogicOr.opens hValue
  | assign s hTarget hValue hAssigns => exact (LogicOr.opens hTarget).append

theorem Plain.opens {s : Simple} (h : Plain inner ctx xs s)
    (hInner : ∀ xs e, inner.expression ctx xs e → Opens opensExpression xs) :
    Opens opensStatement xs := by
  cases h with
  | declare | var | const => exact ⟨_, _, rfl, rfl⟩
  | expr s hValue =>
    refine (hInner _ _ hValue).mono fun kind hKind => ?_
    cases kind <;> first | rfl | cases hKind

theorem Statement.opens {s : Stmt} (h : Statement inner ctx xs next s)
    (hInner : ∀ xs e, inner.expression ctx xs e → Opens opensExpression xs) :
    Opens opensStatement xs := by
  cases h with
  | simple hPlain hEnds => exact (hPlain.opens hInner).append
  | func hFunc =>
    obtain ⟨⟩ := hFunc
    exact ⟨_, _, rfl, rfl⟩
  | cls hCls =>
    obtain ⟨⟩ := hCls
    exact ⟨_, _, rfl, rfl⟩
  | block hBraced =>
    obtain ⟨⟩ := hBraced
    exact ⟨_, _, rfl, rfl⟩
  | _ => exact ⟨_, _, rfl, rfl⟩

/-! ## Closing terminals -/

variable {next' : Terminal}

theorem Terminated.closes (h : Terminated xs next) (h' : Closes next') :
    Terminated xs next' := by
  cases h with
  | semicolon => exact .semicolon
  | omitted => exact .omitted h'

/-- What closes a statement has a say in it only as something that closes. -/
theorem Statement.closes {s : Stmt} (h : Statement inner ctx xs next s) (h' : Closes next') :
    Statement inner ctx xs next' s := by
  cases h with
  | simple hPlain hEnds => exact .simple hPlain (hEnds.closes h')
  | func hFunc => exact .func hFunc
  | cls hCls => exact .cls hCls
  | block hBraced => exact .block hBraced
  | ifElse s hCondition hBody hElifs hOtherwise =>
    exact .ifElse s hCondition hBody hElifs hOtherwise
  | whileLoop s hCondition hBody => exact .whileLoop s hCondition hBody
  | forLoop s hStart hCondition hUpdate hBody => exact .forLoop s hStart hCondition hUpdate hBody
  | breakLoop s hInLoop hEnds => exact .breakLoop s hInLoop (hEnds.closes h')
  | continueLoop s hInLoop hEnds => exact .continueLoop s hInLoop (hEnds.closes h')
  | ret s hInFunction hValue hEnds => exact .ret s hInFunction hValue (hEnds.closes h')
  | tryCatch param s hBody hHandler => exact .tryCatch param s hBody hHandler
  | throw s hValue hEnds => exact .throw s hValue (hEnds.closes h')

theorem Series.closes {α : Type} {item : List Terminal → Terminal → α → Prop} {as : List α}
    (hItem : ∀ ys a, item ys next a → item ys next' a) (h : Series item xs next as) :
    Series item xs next' as := by
  induction as generalizing xs with
  | nil =>
    cases h
    exact .nil
  | cons a as ih =>
    obtain _ | @⟨xs, ys, _, _, _, hHead, hTail⟩ := h
    refine .cons ?_ (ih hTail)
    cases ys with
    | nil => exact hItem _ _ hHead
    | cons y ys => exact hHead

end Form

/-! ## Levels and programs -/

/-- The forms with room for a number of further levels. -/
def forms : Nat → Forms
  | 0 => ⟨fun _ _ _ => False, fun _ _ _ => False, fun _ _ _ _ => False⟩
  | room + 1 =>
    let inner := forms room
    ⟨Form.Expression inner, Form.Unary inner, Form.Statement inner⟩

theorem forms_expression_opens {room : Nat} {ctx : Context} (xs : List Terminal) (e : Expr)
    (h : (forms room).expression ctx xs e) : Form.Opens Form.opensExpression xs := by
  cases room with
  | zero => cases h
  | succ room => exact Form.Expression.opens h

theorem forms_declaration_opens {room : Nat} {ctx : Context} {xs : List Terminal}
    {next : Terminal} {s : Stmt} (h : (forms room).declaration ctx xs next s) :
    Form.Opens Form.opensStatement xs := by
  cases room with
  | zero => cases h
  | succ room => exact Form.Statement.opens h forms_expression_opens

theorem forms_declaration_closes {room : Nat} {ctx : Context} {xs : List Terminal}
    {next next' : Terminal} {s : Stmt} (h : (forms room).declaration ctx xs next s)
    (h' : Form.Closes next') : (forms room).declaration ctx xs next' s := by
  cases room with
  | zero => cases h
  | succ room => exact Form.Statement.closes h h'

/-- A program. -/
def Form.Whole (xs : List Terminal) (p : Program) : Prop :=
  Series ((forms maxNesting).declaration .top) xs (.mark .endOfInput) p.body

end Tern
