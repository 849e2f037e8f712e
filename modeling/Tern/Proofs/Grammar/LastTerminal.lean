import Tern.Proofs.Grammar.Canonical

/-!
# Last terminals

With what expressions and statements end. A statement that wants a terminator ends with an operand
or with its own keyword where it is left without one, and any other statement with a brace.

* `Stmt.isTerminated`: the statements that want a terminator;
* `Form.Ends`: a row that ends with a terminal of a suitable kind;
* `forms_expression_ends`, `forms_declaration_ends`: the forms of all levels.
-/

namespace Tern

open Terminal (endsOperand)

/-- Whether a statement is one that a semicolon ends, which may be left out. -/
def Stmt.isTerminated : Stmt → Bool
  | .simple _ | .breakLoop _ | .continueLoop _ | .ret .. | .throw .. => true
  | _ => false

namespace Form

/-- A row that ends with a terminal of a suitable kind. -/
def Ends (suitable : TokenKind → Bool) (xs : List Terminal) : Prop :=
  ∃ ts t, xs = ts ++ [t] ∧ suitable t.kind = true

/-- The kinds with which statements end, semicolons aside. -/
def endsStatement : TokenKind → Bool
  | .kwBreak | .kwContinue | .kwReturn => true
  | kind => endsOperand kind

variable {g : Forms} {ctx : Context} {xs ys : List Terminal} {next : Terminal}
  {suitable other : TokenKind → Bool}

theorem Ends.mark {kind : TokenKind} (ts : List Terminal) (h : suitable kind = true) :
    Ends suitable (ts ++ [.mark kind]) :=
  ⟨ts, _, rfl, h⟩

theorem Ends.after (xs : List Terminal) (h : Ends suitable ys) : Ends suitable (xs ++ ys) := by
  obtain ⟨ts, t, rfl, ht⟩ := h
  exact ⟨xs ++ ts, t, by rw [List.append_assoc], ht⟩

theorem Ends.cons (x : Terminal) (h : Ends suitable ys) : Ends suitable (x :: ys) := h.after [x]

theorem Ends.mono (h : Ends suitable xs) (hImp : ∀ kind, suitable kind = true → other kind = true) :
    Ends other xs := by
  obtain ⟨ts, t, rfl, ht⟩ := h
  exact ⟨ts, t, rfl, hImp _ ht⟩

/-- What may be missing at the end of a row. -/
theorem Ends.append (h : Ends suitable xs) (h' : ys = [] ∨ Ends suitable ys) :
    Ends suitable (xs ++ ys) := by
  rcases h' with rfl | h'
  · rwa [List.append_nil]
  · exact h'.after xs

/-- The last token of a row whose terminals end with a suitable one. -/
theorem Ends.last {row : List Token} {t : Token} (h : Ends suitable (row.map Token.terminal))
    (ht : t ∈ row.getLast?) : suitable t.kind = true := by
  obtain ⟨ts, u, hRow, hu⟩ := h
  have hLast := congrArg List.getLast? hRow
  rw [List.getLast?_map, Option.mem_def.mp ht, List.getLast?_concat] at hLast
  obtain rfl : t.terminal = u := Option.some.inj hLast
  rwa [Token.kind_terminal] at hu

theorem Primary.ends {e : Expr} (h : Primary g ctx xs e) : Ends endsOperand xs := by
  cases h with
  | number | string | null | this | name => exact ⟨[], _, rfl, rfl⟩
  | boolean v => cases v <;> exact ⟨[], _, rfl, rfl⟩
  | super m => exact ⟨[.mark .kwSuper, .mark .dot], .name m.name, rfl, rfl⟩
  | grouped | array => exact (Ends.mark _ rfl).cons _

theorem Suffixed.ends {e e' : Expr} (h : Suffixed g ctx e xs e') : Ends endsOperand xs := by
  cases h with
  | member m => exact ⟨[.mark .dot], .name m.name, rfl, rfl⟩
  | call | index => exact (Ends.mark _ rfl).cons _

theorem Chained.ends {start : List Terminal → Expr → Prop}
    {round : Expr → List Terminal → Expr → Prop}
    (hStart : ∀ xs e, start xs e → Ends suitable xs)
    (hRound : ∀ e xs e', round e xs e' → Ends suitable xs) {e : Expr}
    (h : Chained start round xs e) : Ends suitable xs := by
  obtain ⟨ys, zs, b, rfl, hFirst, hRounds⟩ := h
  exact hRounds.keep (P := fun xs _ => Ends suitable xs)
    (fun xs _ ys _ _ hLater => (hRound _ ys _ hLater).after xs) (hStart ys b hFirst)

theorem LeftAssoc.ends {β : Type} {op : TokenKind → Option β}
    {join : β → Expr → Expr → Option Span → Expr} {operand : List Terminal → Expr → Prop}
    (hOperand : ∀ xs e, operand xs e → Ends suitable xs) {e : Expr}
    (h : LeftAssoc op join operand xs e) : Ends suitable xs := by
  refine Chained.ends hOperand (fun e xs e' hJoined => ?_) h
  cases hJoined with
  | mk s hIsOp hRight => exact (hOperand _ _ hRight).cons _

theorem Unary.ends (hOperand : ∀ xs e, g.operand ctx xs e → Ends endsOperand xs) {e : Expr}
    (h : Unary g ctx xs e) : Ends endsOperand xs := by
  cases h with
  | operator s hIsOp hRight => exact (hOperand _ _ hRight).cons _
  | call hCall => exact Chained.ends (fun _ _ h => h.ends) (fun _ _ _ h => h.ends) hCall

theorem Expression.ends (hInner : ∀ xs e, g.expression ctx xs e → Ends endsOperand xs)
    (hOperand : ∀ xs e, g.operand ctx xs e → Ends endsOperand xs) {e : Expr}
    (h : Expression g ctx xs e) : Ends endsOperand xs := by
  cases h with
  | value hValue =>
    -- Disjunctions, conjunctions, equalities, comparisons, sums and products, from the outside in.
    refine LeftAssoc.ends (fun _ _ h => ?_) hValue
    refine LeftAssoc.ends (fun _ _ h => ?_) h
    refine LeftAssoc.ends (fun _ _ h => ?_) h
    refine LeftAssoc.ends (fun _ _ h => ?_) h
    refine LeftAssoc.ends (fun _ _ h => ?_) h
    exact LeftAssoc.ends (fun _ _ h => h.ends hOperand) h
  | assign s hTarget hValue hAssigns => exact ((hInner _ _ hValue).cons _).after _

theorem Plain.ends {s : Simple} (h : Plain g ctx xs s)
    (hInner : ∀ xs e, g.expression ctx xs e → Ends endsOperand xs) : Ends endsOperand xs := by
  cases h with
  | declare id => exact ⟨[.mark .kwVar], .name id.name, rfl, rfl⟩
  | var id s hValue | const id s hValue => exact (((hInner _ _ hValue).cons _).cons _).cons _
  | expr s hValue => exact hInner _ _ hValue

theorem Optional.ends {α : Type} {form : List Terminal → α → Prop}
    (hForm : ∀ xs a, form xs a → Ends suitable xs) {a : Option α} (h : Optional form xs a) :
    xs = [] ∨ Ends suitable xs := by
  cases h with
  | none => exact .inl rfl
  | some h => exact .inr (hForm _ _ h)

theorem Braced.ends {b : Block} (h : Braced g ctx xs b) : Ends (· == .rightBrace) xs := by
  cases h with
  | mk s hBody => exact (Ends.mark _ rfl).cons _

theorem Series.ends {α : Type} {item : List Terminal → Terminal → α → Prop}
    (hItem : ∀ xs n a, item xs n a → Ends suitable xs) {as : List α}
    (h : Series item xs next as) : xs = [] ∨ Ends suitable xs := by
  induction h with
  | nil => exact .inl rfl
  | cons hHead _ ih => exact .inr ((hItem _ _ _ hHead).append ih)

/-- A statement without a terminator ends with a brace. -/
theorem Statement.ends {s : Stmt} (h : Statement g ctx xs next s) (hs : s.isTerminated = false) :
    Ends (· == .rightBrace) xs := by
  cases h with
  | simple | breakLoop | continueLoop | ret | throw => cases hs
  | func hFunc =>
    obtain ⟨id, s, hParams, hFresh, hBody⟩ := hFunc
    exact ((((hBody.ends.cons _).after _).cons _).cons _).cons _
  | cls hCls =>
    obtain ⟨id, s, hParent, hMethods⟩ := hCls
    exact ((((Ends.mark _ rfl).cons _).after _).cons _).cons _
  | block hBraced => exact hBraced.ends
  | ifElse s hCondition hBody hElifs hOtherwise =>
    refine ((hBody.ends.append ?_).after _).cons _
    have hArm : ∀ vs (n : Terminal) e, Arm g ctx vs e → Ends (· == .rightBrace) vs := by
      intro vs n e h
      obtain ⟨s, hCondition, hBody⟩ := h
      exact (hBody.ends.after _).cons _
    have hElse : ∀ vs e, ElseArm g ctx vs e → Ends (· == .rightBrace) vs := by
      intro vs e h
      obtain ⟨hBody⟩ := h
      exact hBody.ends.cons _
    rcases hOtherwise.ends hElse with rfl | hLast
    · rw [List.append_nil]
      exact hElifs.ends hArm
    · exact .inr (hLast.after _)
  | whileLoop s hCondition hBody => exact (hBody.ends.after _).cons _
  | forLoop s hStart hCondition hUpdate hBody =>
    exact (((((((hBody.ends.cons _).after _).cons _).after _).cons _).after _).cons _).cons _
  | tryCatch param s hBody hHandler =>
    exact ((((((hHandler.ends.cons _).cons _).cons _).cons _).after _)).cons _

end Form

/-- An operand ends a statement. -/
theorem Form.Ends.statement {xs : List Terminal} (h : Form.Ends endsOperand xs) :
    Form.Ends Form.endsStatement xs :=
  h.mono fun kind hKind => by cases kind <;> first | rfl | cases hKind

theorem forms_expression_ends {room : Nat} {ctx : Context} (xs : List Terminal) (e : Expr)
    (h : (forms room).expression ctx xs e) : Form.Ends endsOperand xs := by
  have hBoth : ∀ room, (∀ xs e, (forms room).expression ctx xs e → Form.Ends endsOperand xs) ∧
      ∀ xs e, (forms room).operand ctx xs e → Form.Ends endsOperand xs := by
    intro room
    induction room with
    | zero => exact ⟨nofun, nofun⟩
    | succ room ih =>
      exact ⟨fun _ _ h => Form.Expression.ends ih.1 ih.2 h, fun _ _ h => Form.Unary.ends ih.2 h⟩
  exact (hBoth room).1 xs e h

/-- What a statement ends with if it does not end with a semicolon. -/
theorem forms_declaration_ends {room : Nat} {ctx : Context} {xs : List Terminal}
    {next : Terminal} {s : Stmt} (h : (forms room).declaration ctx xs next s)
    (hs : s.isTerminated = true) :
    Form.Ends Form.endsStatement xs ∨ Form.Ends (· == .semicolon) xs := by
  have hEnds : ∀ xs {ys}, Form.Ends Form.endsStatement xs → Form.Terminated ys next →
      Form.Ends Form.endsStatement (xs ++ ys) ∨ Form.Ends (· == .semicolon) (xs ++ ys) := by
    intro xs ys hx hy
    cases hy with
    | semicolon => exact .inr (.mark _ rfl)
    | omitted hCloses => exact .inl (by rwa [List.append_nil])
  cases room with
  | zero => cases h
  | succ room =>
    cases h with
    | simple hPlain hTerminated =>
      exact hEnds _ ((hPlain.ends forms_expression_ends).statement) hTerminated
    | breakLoop s hInLoop hTerminated | continueLoop s hInLoop hTerminated =>
      exact hEnds [_] ⟨[], _, rfl, rfl⟩ hTerminated
    | @ret xs ys _ e s hInFunction hValue hTerminated =>
      have hKeyword : Form.Ends Form.endsStatement [.mark .kwReturn] := ⟨[], _, rfl, rfl⟩
      exact hEnds _ (hKeyword.append ((hValue.ends forms_expression_ends).imp_right
        Form.Ends.statement)) hTerminated
    | @throw xs ys _ e s hValue hTerminated =>
      exact hEnds _ ((forms_expression_ends _ _ hValue).statement.cons _) hTerminated
    | _ => cases hs

end Tern
