import Tern.Proofs.Grammar.Ending
import Tern.Proofs.Grammar.Rules

/-!
# The recursion of the grammar

Every call of the descent agrees with the parser of the same construct, as long as the stack has
room for the calls below it. At one depth of nesting the rules call each other in one direction
only, so few of them can stand on the stack at once. A call that goes back raises the depth, which
cannot grow beyond a limit. So a fixed number of frames is enough for every program.

* `Descent.Call.height`, `Descent.Call.need`: the frames that a call needs at its own depth, and at
  all that are left;
* `Descent.Call.parser`: the parser of the same construct;
* `Pairing.pairs_run`: the calls of the descent beside those parsers;
* `Descent.ofTokens_bounded`: whole programs, and what a call takes.
-/

namespace Tern

namespace Grammar

open Tern.Parser

/-- A statement that declares nothing. -/
def statement (inner : Level) (ctx : Context) : Parser Stmt := do
  match (← peek).kind with
  | .kwIf => ifStmt inner ctx
  | .kwWhile => whileStmt inner ctx
  | .kwFor => forStmt inner ctx
  | .kwBreak => breakStmt ctx
  | .kwContinue => continueStmt ctx
  | .kwReturn => returnStmt inner ctx
  | .kwTry => tryStmt inner ctx
  | .kwThrow => throwStmt inner ctx
  | .leftBrace => .block <$> block inner ctx "block"
  | _ => do terminated (.simple (← exprStmt inner ctx))

end Grammar

namespace Descent.Call

/-- Whether a rule is called only where its keyword is ahead. -/
def led {α : Type} : Call α → Bool
  | classDeclaration | functionDeclaration _ | varDeclaration | constDeclaration | ifStatement
  | whileStatement | forStatement | breakStatement | continueStatement | returnStatement
  | tryStatement | throwStatement => true
  | _ => false

/-- How many frames a call needs, calls at a greater depth of nesting aside. -/
def height {α : Type} : Call α → Nat
  | declaration | expression | breakStatement | continueStatement => 1
  | block _ | parenthesized _ | varDeclaration | constDeclaration | expressionStatement
  | returnStatement | throwStatement | primary => 2
  | loopBody _ | functionDeclaration _ | ifStatement | tryStatement | call => 3
  | classDeclaration | whileStatement | forStatement | unary => 4
  | statement | factor => 5
  | anyDeclaration | term => 6
  | comparison => 7
  | equality => 8
  | logicAnd => 9
  | logicOr => 10
  | assignment => 11

theorem height_pos {α : Type} (c : Call α) : 0 < c.height := by
  cases c <;> exact Nat.succ_pos _

/-- No call needs more frames at a depth than an assignment. -/
theorem height_le {α : Type} (c : Call α) : c.height ≤ 11 := by
  cases c <;> simp [height]

/-- How many frames a call at a depth needs. Every level that is left may need as many as an
assignment does. -/
def need {α : Type} (depth : Nat) (c : Call α) : Nat := 11 * (maxNesting - depth) + c.height

/-- The parser of the same construct. -/
def parser {α : Type} (c : Call α) (l : Level) (ctx : Context) : Parser α :=
  match c with
  | declaration => l.declaration ctx
  | anyDeclaration => Grammar.declaration l ctx
  | classDeclaration => Grammar.classDef l ctx
  | functionDeclaration what => Grammar.funcDef l ctx what
  | varDeclaration => Grammar.varDecl l ctx
  | constDeclaration => Grammar.constDecl l ctx
  | statement => Grammar.statement l ctx
  | ifStatement => Grammar.ifStmt l ctx
  | whileStatement => Grammar.whileStmt l ctx
  | forStatement => Grammar.forStmt l ctx
  | breakStatement => Grammar.breakStmt ctx
  | continueStatement => Grammar.continueStmt ctx
  | returnStatement => Grammar.returnStmt l ctx
  | tryStatement => Grammar.tryStmt l ctx
  | throwStatement => Grammar.throwStmt l ctx
  | block what => Grammar.block l ctx what
  | loopBody what => Grammar.loopBody l ctx what
  | parenthesized keyword => Grammar.parenthesized l ctx keyword
  | expressionStatement => Grammar.exprStmt l ctx
  | expression => l.expression ctx
  | assignment => Grammar.assignment l ctx
  | logicOr => Grammar.logicOr l ctx
  | logicAnd => Grammar.logicAnd l ctx
  | equality => Grammar.equality l ctx
  | comparison => Grammar.comparison l ctx
  | term => Grammar.term l ctx
  | factor => Grammar.factor l ctx
  | unary => Grammar.unary l ctx
  | call => Grammar.call l ctx
  | primary => Grammar.primary l ctx

end Descent.Call

/-- As many frames as any call needs. -/
def Descent.enough : Nat := 11 * maxNesting + 11

theorem Descent.Call.need_le {α : Type} (depth : Nat) (c : Call α) : c.need depth ≤ enough := by
  have hLe := c.height_le
  unfold need enough
  omega

namespace Pairing

open Tern.Parser Grammar

variable {D : Pairing} {α β : Type} {xs ys : List Token} {t t' : Token} {go : Descent.Caller}
  {depth : Nat} {ctx : Context} {l : Level} {what : String}

/-! ## Statements -/

theorem pairs_statement
    (hCall : ∀ {β : Type} (c : Descent.Call β), c.height < 5 →
      D.Pairs c.led (go _ c depth ctx) (c.parser l ctx)) :
    D.Pairs false (Descent.statement go depth ctx) (statement l ctx) := by
  intro xs _
  refine runs_peek_bind fun t t' hSees => ?_
  rw [hSees.kind]
  have hRow := hSees.ne_nil
  generalize t.kind = kind at hRow
  cases kind
  case kwIf => exact hCall .ifStatement (by decide) xs fun _ => hRow nofun
  case kwWhile => exact hCall .whileStatement (by decide) xs fun _ => hRow nofun
  case kwFor => exact hCall .forStatement (by decide) xs fun _ => hRow nofun
  case kwBreak => exact hCall .breakStatement (by decide) xs fun _ => hRow nofun
  case kwContinue => exact hCall .continueStatement (by decide) xs fun _ => hRow nofun
  case kwReturn => exact hCall .returnStatement (by decide) xs fun _ => hRow nofun
  case kwTry => exact hCall .tryStatement (by decide) xs fun _ => hRow nofun
  case kwThrow => exact hCall .throwStatement (by decide) xs fun _ => hRow nofun
  case leftBrace => exact runs_map (hCall (.block "block") (by decide)).runs
  all_goals
    refine runs_bind (hCall .expressionStatement (by decide)).runs fun ys e _ hLess => ?_
    exact runs_after hLess (runs_terminated _)

/-- Where nothing is declared, a declaration is a statement. -/
theorem declaration_eq_statement {u : Input} (hPeek : peek u = .ok (t, u))
    (hClass : t.kind ≠ .kwClass) (hFunc : t.kind ≠ .kwFunc) (hVar : t.kind ≠ .kwVar)
    (hConst : t.kind ≠ .kwConst) :
    declaration l ctx u = statement l ctx u := by
  unfold declaration statement
  rw [bind_ok hPeek, bind_ok hPeek]
  cases hKind : t.kind <;> first | rfl | contradiction

theorem pairs_declaration
    (hCall : ∀ {β : Type} (c : Descent.Call β), c.height < 6 →
      D.Pairs c.led (go _ c depth ctx) (c.parser l ctx)) :
    D.Pairs false (Descent.anyDeclaration go depth ctx) (declaration l ctx) := by
  intro xs _
  refine runs_look fun t t' hSees => ?_
  refine runs_case_left hSees (fun h => runs_peek_right hSees ?_) fun hClass => ?_
  · have hRow := hSees.ne_nil (h ▸ by decide)
    rw [hSees.kind, h]
    exact runs_map (hCall .classDeclaration (by decide) xs fun _ => hRow)
  refine runs_case_left hSees (fun h => runs_peek_right hSees ?_) fun hFunc => ?_
  · have hRow := hSees.ne_nil (h ▸ by decide)
    rw [hSees.kind, h]
    exact runs_map (hCall (.functionDeclaration "function") (by decide) xs fun _ => hRow)
  refine runs_case_left hSees (fun h => runs_peek_right hSees ?_) fun hVar => ?_
  · have hRow := hSees.ne_nil (h ▸ by decide)
    rw [hSees.kind, h]
    exact runs_bind (hCall .varDeclaration (by decide) xs fun _ => hRow) fun ys s _ hLess =>
      runs_after hLess (runs_terminated _)
  refine runs_case_left hSees (fun h => runs_peek_right hSees ?_) fun hConst => ?_
  · have hRow := hSees.ne_nil (h ▸ by decide)
    rw [hSees.kind, h]
    exact runs_bind (hCall .constDeclaration (by decide) xs fun _ => hRow) fun ys s _ hLess =>
      runs_after hLess (runs_terminated _)
  refine runs_congr_right hSees (fun u hPeek => ?_) (hCall .statement (by decide)).runs
  rw [← hSees.kind] at hClass hFunc hVar hConst
  exact declaration_eq_statement hPeek hClass hFunc hVar hConst

/-! ## Calls -/

/-- What goes in by a level agrees with the parser of that level, and is refused where there is
none. -/
theorem pairs_nested {inner : Nat → Descent α} {q : Level → Parser α}
    (hNone : q (level 0) = tooNested)
    (h : depth < maxNesting →
      D.Pairs false (inner (depth + 1)) (q (level (maxNesting - (depth + 1) + 1)))) :
    D.Pairs false (Descent.nested depth inner) (q (level (maxNesting - depth))) := by
  unfold Descent.nested
  by_cases hDeep : maxNesting ≤ depth
  · rw [if_pos hDeep, Nat.sub_eq_zero_of_le hDeep, hNone]
    intro xs _
    unfold tooNested
    rw [lift_bind]
    exact runs_peek_bind fun t t' hSees => runs_failAt hSees.shown
  · have hRoom : maxNesting - (depth + 1) + 1 = maxNesting - depth := by omega
    rw [if_neg hDeep, ← hRoom]
    exact h (Nat.lt_of_not_le hDeep)

/-- With enough frames for the levels that are left and for the calls at this one, a call agrees
with the parser of the same construct. The induction is on the frames. Every rule calls lower ones,
unless the call goes in by a level, which makes room for those of any height. -/
theorem pairs_run (frames depth : Nat) (c : Descent.Call α) (ctx : Context)
    (hFrames : c.need depth ≤ frames) :
    D.Pairs c.led (Descent.run D.rounds frames α c depth ctx)
      (c.parser (level (maxNesting - depth)) ctx) := by
  unfold Descent.Call.need at hFrames
  induction frames generalizing α depth ctx with
  | zero =>
    have hPos := c.height_pos
    omega
  | succ frames ih =>
    have hCall {β : Type} (c' : Descent.Call β) (ctx' : Context) (h : c'.height < c.height) :
        D.Pairs c'.led (Descent.run D.rounds frames β c' depth ctx')
          (c'.parser (level (maxNesting - depth)) ctx') := ih depth c' ctx' (by omega)
    have hIn {β : Type} (c' : Descent.Call β) (hDeep : depth < maxNesting) :
        D.Pairs c'.led (Descent.run D.rounds frames β c' (depth + 1) ctx)
          (c'.parser (level (maxNesting - (depth + 1))) ctx) := by
      have hPos := c.height_pos
      have hLe := c'.height_le
      exact ih (depth + 1) c' ctx (by omega)
    have hDeclaration : D.Pairs false (Descent.nested depth fun depth =>
        Descent.run D.rounds frames _ .anyDeclaration depth ctx)
        ((level (maxNesting - depth)).declaration ctx) :=
      pairs_nested (q := fun l => l.declaration ctx) rfl (hIn .anyDeclaration)
    have hExpr : D.Pairs false (Descent.nested depth fun depth =>
        Descent.run D.rounds frames _ .assignment depth ctx)
        ((level (maxNesting - depth)).expression ctx) :=
      pairs_nested (q := fun l => l.expression ctx) rfl (hIn .assignment)
    have hOperand : D.Pairs false (Descent.nested depth fun depth =>
        Descent.run D.rounds frames _ .unary depth ctx)
        ((level (maxNesting - depth)).operand ctx) :=
      pairs_nested (q := fun l => l.operand ctx) rfl (hIn .unary)
    cases c with
    | declaration => exact hDeclaration
    | anyDeclaration => exact pairs_declaration fun c' => hCall c' ctx
    | classDeclaration =>
      exact pairs_classDef fun ctx' => hCall (.functionDeclaration "method") ctx' (by decide)
    | functionDeclaration what =>
      exact pairs_funcDef fun ctx' => hCall (.block (what ++ " body")) ctx' (by decide : 2 < 3)
    | varDeclaration => exact pairs_varDecl (hCall .expression ctx (by decide))
    | constDeclaration => exact pairs_constDecl (hCall .expression ctx (by decide))
    | statement => exact pairs_statement fun c' => hCall c' ctx
    | ifStatement =>
      exact pairs_ifStmt (fun keyword => hCall (.parenthesized keyword) ctx (by decide : 2 < 3))
        fun what => hCall (.block what) ctx (by decide : 2 < 3)
    | whileStatement =>
      exact pairs_whileStmt (hCall (.parenthesized "while") ctx (by decide))
        (hCall (.loopBody "while body") ctx (by decide))
    | forStatement =>
      exact pairs_forStmt (hCall .varDeclaration ctx (by decide))
        (hCall .constDeclaration ctx (by decide)) (hCall .expressionStatement ctx (by decide))
        (hCall .expression ctx (by decide)) (hCall (.loopBody "for body") ctx (by decide))
    | breakStatement => exact pairs_jump
    | continueStatement => exact pairs_jump
    | returnStatement => exact pairs_returnStmt (hCall .expression ctx (by decide))
    | tryStatement => exact pairs_tryStmt fun what => hCall (.block what) ctx (by decide : 2 < 3)
    | throwStatement => exact pairs_throwStmt (hCall .expression ctx (by decide))
    | block what => exact pairs_block (hCall .declaration ctx (by decide : 1 < 2))
    | loopBody what => exact hCall (.block what) { ctx with inLoop := true } (by decide : 2 < 3)
    | parenthesized keyword => exact pairs_parenthesized (hCall .expression ctx (by decide : 1 < 2))
    | expressionStatement => exact pairs_exprStmt (hCall .expression ctx (by decide))
    | expression => exact hExpr
    | assignment => exact pairs_assignment (hCall .logicOr ctx (by decide)) hExpr
    | logicOr =>
      refine pairs_logical rfl (fun k => ?_) (hCall .logicAnd ctx (by decide))
      cases k <;> rfl
    | logicAnd =>
      refine pairs_logical rfl (fun k => ?_) (hCall .equality ctx (by decide))
      cases k <;> rfl
    | equality =>
      refine pairs_binary rfl (fun k => ?_) (hCall .comparison ctx (by decide))
      cases k <;> first | exact .inl ⟨by decide, rfl⟩ | exact .inr ⟨_, by decide, rfl, rfl⟩
    | comparison =>
      refine pairs_binary rfl (fun k => ?_) (hCall .term ctx (by decide))
      cases k <;> first | exact .inl ⟨by decide, rfl⟩ | exact .inr ⟨_, by decide, rfl, rfl⟩
    | term =>
      refine pairs_binary rfl (fun k => ?_) (hCall .factor ctx (by decide))
      cases k <;> first | exact .inl ⟨by decide, rfl⟩ | exact .inr ⟨_, by decide, rfl, rfl⟩
    | factor =>
      refine pairs_binary rfl (fun k => ?_) (hCall .unary ctx (by decide))
      cases k <;> first | exact .inl ⟨by decide, rfl⟩ | exact .inr ⟨_, by decide, rfl, rfl⟩
    | unary => exact pairs_unary hOperand (hCall .call ctx (by decide))
    | call => exact pairs_call (hCall .expression ctx (by decide)) (hCall .primary ctx (by decide))
    | primary => exact pairs_primary (hCall .expression ctx (by decide))

/-! ## Programs -/

variable {s u : Input} {frames : Nat}

/-- The declarations of a program go on to the end of input. -/
theorem runs_declarations (hFrames : Descent.enough ≤ frames) :
    D.Runs xs
      (Descent.loop (do
          if ← Descent.lift (check .endOfInput) then pure none else pure (some ()))
        (fun body _ => do
          pure ((← Descent.run D.rounds frames _ .declaration 0 .top) :: body)) D.rounds [])
      (chain (do if ← check .endOfInput then pure none else pure (some ()))
        (fun body _ => do pure ((← (level maxNesting).declaration .top) :: body)) [])
      fun ys _ => ys = [] := by
  refine runs_chain (fun ys => ?_) []
  refine runs_check_bind fun t t' hSees => ?_
  by_cases hKind : t.kind = .endOfInput
  · rw [decide_eq_true hKind]
    exact runs_pure ⟨fun _ => (hSees.eq_nil hKind).1, nofun⟩
  · rw [decide_eq_false hKind]
    refine runs_pure ⟨nofun, fun _ _ body => ?_⟩
    have hDeclaration : D.Pairs false (Descent.run D.rounds frames Stmt .declaration 0 .top)
        ((level maxNesting).declaration .top) :=
      pairs_run frames 0 .declaration .top ((Descent.Call.need_le _ _).trans hFrames)
    exact runs_bind hDeclaration.runs fun zs d _ hLess => runs_pure hLess

/-- A program is found on both sides, with the same body, or refused in the same way. -/
theorem program_cases (hFrames : Descent.enough ≤ frames) (hAlike : D.Alike xs s u) :
    (∃ body t t' s' u', D.Shown t t' ∧
      Descent.program D.rounds frames s = .ok (⟨body, some ⟨t.pos, D.finish.pos⟩⟩, s') ∧
      Grammar.program u = .ok (⟨body, some ⟨t'.pos, D.finish'.pos⟩⟩, u')) ∨
    ∃ cause found pos pos', (pos' = pos ∨ pos = D.finish.pos ∧ pos' = D.finish'.pos) ∧
      Descent.program D.rounds frames s = .error (.refused (.parse ⟨cause, found, pos⟩)) ∧
      Grammar.program u = .error (.parse ⟨cause, found, pos'⟩) := by
  obtain ⟨t, t', hSees, hLeft, hRight⟩ := hAlike.peek
  have hBody := runs_declarations hFrames s u hAlike
  generalize hP : Descent.loop _ _ D.rounds [] s = x at hBody
  generalize hQ : chain _ _ [] u = y at hBody
  cases hBody with
  | @done ys body s' u' hSuffix hThere hNil =>
    subst hNil
    obtain ⟨v, v', hEnd, hLeft', hRight'⟩ := hThere.peek
    cases hEnd
    refine .inl ⟨body.reverse, t, t', s', u', hSees.shown, ?_, ?_⟩
    · exact (lift_bind_ok hLeft).trans ((descent_bind_ok hP).trans (lift_bind_ok hLeft'))
    · exact (bind_ok hRight).trans ((bind_ok hQ).trans (bind_ok hRight'))
  | @failed cause found pos pos' hPos =>
    refine .inr ⟨cause, found, pos, pos', hPos, ?_, ?_⟩
    · exact (lift_bind_ok hLeft).trans (descent_bind_error hP)
    · exact (bind_ok hRight).trans (bind_error hQ)

end Pairing

/-- The second outcome is the first one with the end of input moved from one position to another:
the programs have the same body, or the errors the same cause. -/
inductive Program.Moved (pos pos' : Position) :
    Except SyntaxError Program → Except SyntaxError Program → Prop where
  | program {body : List Stmt} {start start' : Position}
      (hStart : start' = start ∨ start = pos ∧ start' = pos') :
      Moved pos pos' (.ok ⟨body, some ⟨start, pos⟩⟩) (.ok ⟨body, some ⟨start', pos'⟩⟩)
  | refused {cause : ParseCause} {found : String} {here here' : Position}
      (hHere : here' = here ∨ here = pos ∧ here' = pos') :
      Moved pos pos' (.error (.parse ⟨cause, found, here⟩)) (.error (.parse ⟨cause, found, here'⟩))

theorem Program.Moved.eq {pos : Position} {x y : Except SyntaxError Program}
    (h : Program.Moved pos pos x y) : y = x := by
  cases h with
  | program hStart =>
    obtain rfl | ⟨rfl, rfl⟩ := hStart <;> rfl
  | refused hHere =>
    obtain rfl | ⟨rfl, rfl⟩ := hHere <;> rfl

theorem Program.Moved.ok_or_error {pos pos' : Position} {x y : Except SyntaxError Program}
    (h : Program.Moved pos pos' x y) : (∃ p, x = .ok p) ∨ ∃ e, x = .error (.parse e) := by
  cases h with
  | program => exact .inl ⟨_, rfl⟩
  | refused => exact .inr ⟨_, rfl⟩

namespace Descent

variable {tokens tokens' : List Token} {frames rounds : Nat}

theorem mapError_refused_inj {α : Type} {x y : Except SyntaxError α}
    (h : x.mapError Stop.refused = y.mapError Stop.refused) : x = y := by
  cases x <;> cases y <;> cases h <;> rfl

/-- A descent into tokens has an outcome of the grammar, for all tokens with the same row. -/
theorem ofTokens_moved (hFrames : enough ≤ frames) (hRounds : tokens.length < rounds)
    (hRow : Token.row tokens' = Token.row tokens) :
    ∃ x, ofTokens rounds frames tokens = x.mapError .refused ∧
      Program.Moved (Token.finish none tokens).pos (Token.finish none tokens').pos x
        (Program.ofStream? ⟨tokens', none⟩) := by
  have hAlike := Pairing.alike_ofInputs (s := Input.ofStream ⟨tokens, none⟩)
    (u := Input.ofStream ⟨tokens', none⟩) hRow rfl rfl rfl hRounds le_rfl
  unfold ofTokens Program.ofStream?
  obtain ⟨body, t, t', s', u', hShown, hLeft, hRight⟩ |
    ⟨cause, found, here, here', hHere, hLeft, hRight⟩ := Pairing.program_cases hFrames hAlike
  · refine ⟨.ok ⟨body, some ⟨t.pos, (Token.finish none tokens).pos⟩⟩, ?_, ?_⟩
    · exact congrArg (fun r => r >>= fun r => pure r.1) hLeft
    · rw [hRight]
      exact .program hShown.pos
  · refine ⟨.error (.parse ⟨cause, found, here⟩), ?_, ?_⟩
    · exact congrArg (fun r => r >>= fun r => pure r.1) hLeft
    · rw [hRight]
      exact .refused hHere

/-- A call with enough frames takes a token or is refused. -/
theorem run_takes {α : Type} (c : Call α) (depth : Nat) (ctx : Context) {s : Input}
    (hFailure : s.failure = none) (hRounds : s.rest.length < rounds)
    (hFrames : c.need depth ≤ frames) (hLed : c.led = true → Token.row s.rest ≠ []) :
    (∃ a s' taken, run rounds frames α c depth ctx s = .ok (a, s') ∧ taken ≠ [] ∧
      Token.row s.rest = taken ++ Token.row s'.rest) ∨
    ∃ e, run rounds frames α c depth ctx s = .error (.refused (.parse e)) := by
  have hAlike := Pairing.alike_ofInputs (s := s) (u := { s with size := s.rest.length }) rfl rfl
    hFailure hFailure hRounds le_rfl
  have hAgree := Pairing.pairs_run frames depth c ctx hFrames _ hLed _ _ hAlike
  generalize hRun : run _ frames α c depth ctx s = x at hAgree
  generalize c.parser _ ctx _ = y at hAgree
  cases hAgree with
  | @done ys a s' u' hSuffix hThere hLess =>
    obtain ⟨taken, hTaken⟩ := hSuffix
    refine .inl ⟨a, s', taken, hRun, ?_, ?_⟩
    · rintro rfl
      rw [← hTaken] at hLess
      exact absurd hLess (Nat.lt_irrefl _)
    · rw [hThere.row, hTaken]
  | failed => exact .inr ⟨_, hRun⟩

-- With one frame less than it needs, this call does not even come to be refused.
example : run 2 11 Expr .expression 199 .top
    (Input.ofStream ⟨[⟨.leftParen, "(", ⟨1, 1⟩, none⟩], none⟩) = .error .stackFull := rfl

/-- A stack of one height is enough for all tokens, and so is one more round for each loop than
there are tokens: a program comes out, or what is wrong with them. It depends on nothing behind the
end of input, and on that end only for where it stands. A call that succeeds takes a token. -/
theorem ofTokens_bounded (tokens : List Token) {frames rounds : Nat} (hFrames : enough ≤ frames)
    (hRounds : tokens.length < rounds) :
    ((∃ p, ofTokens rounds frames tokens = .ok p ∧ Program.ofStream? ⟨tokens, none⟩ = .ok p) ∨
      ∃ e, ofTokens rounds frames tokens = .error (.refused (.parse e)) ∧
        Program.ofStream? ⟨tokens, none⟩ = .error (.parse e)) ∧
    (∀ tokens', Token.row tokens' = Token.row tokens →
      Program.Moved (Token.finish none tokens).pos (Token.finish none tokens').pos
        (Program.ofStream? ⟨tokens, none⟩) (Program.ofStream? ⟨tokens', none⟩)) ∧
    ∀ (α : Type) (c : Call α) (depth frames : Nat) (ctx : Context) (s : Input),
      s.failure = none → s.rest.length < rounds → c.need depth ≤ frames →
      (c.led = true → Token.row s.rest ≠ []) →
      (∃ a s' taken, run rounds frames α c depth ctx s = .ok (a, s') ∧ taken ≠ [] ∧
        Token.row s.rest = taken ++ Token.row s'.rest) ∨
      ∃ e, run rounds frames α c depth ctx s = .error (.refused (.parse e)) := by
  obtain ⟨x, hx, hMoved⟩ := ofTokens_moved hFrames hRounds rfl
  have hSame := hMoved.eq
  refine ⟨?_, fun tokens' hRow => ?_, fun α c depth frames ctx s hFailure hRest hNeed hLed =>
    run_takes c depth ctx hFailure hRest hNeed hLed⟩
  · rw [hx, hSame]
    obtain ⟨p, rfl⟩ | ⟨e, rfl⟩ := hMoved.ok_or_error
    · exact .inl ⟨p, rfl, rfl⟩
    · exact .inr ⟨e, rfl, rfl⟩
  · obtain ⟨y, hy, hMoved'⟩ := ofTokens_moved hFrames hRounds hRow
    rw [hx] at hy
    rwa [hSame, mapError_refused_inj hy]

/-- A negation, with nothing behind it or with an end of input and more behind that. Two levels are
left for it. -/
theorem ofTokens_bounded_not :
    ∃ bang name : Token, bang = ⟨.bang, "!", ⟨1, 1⟩, none⟩ ∧
      name = ⟨.identifier, "x", ⟨1, 2⟩, none⟩ ∧
      (∃ p, ofTokens 3 enough [bang, name] = .ok p ∧
        Program.ofStream? ⟨[bang, name], none⟩ = .ok p) ∧
      Program.Moved ⟨1, 3⟩ ⟨2, 1⟩ (Program.ofStream? ⟨[bang, name], none⟩)
        (Program.ofStream? ⟨[bang, name, .eof ⟨2, 1⟩, bang], none⟩) ∧
      ∃ e s' taken, run 3 23 Expr .expression 198 .top (Input.ofStream ⟨[bang, name], none⟩) =
          .ok (e, s') ∧ taken ≠ [] ∧ [bang, name] = taken ++ Token.row s'.rest := by
  refine ⟨_, _, rfl, rfl, ?_⟩
  generalize hBang : Token.mk .bang "!" ⟨1, 1⟩ none = bang
  generalize hName : Token.mk .identifier "x" ⟨1, 2⟩ none = name
  have hRow : Token.row [bang, name, .eof ⟨2, 1⟩, bang] = Token.row [bang, name] := by
    rw [← hBang, ← hName]
    rfl
  obtain ⟨hOutcome, hMoved, hTakes⟩ :=
    ofTokens_bounded [bang, name] (le_refl enough) (Nat.lt_succ_self 2)
  specialize hMoved _ hRow
  specialize hTakes Expr .expression 198 23 .top (Input.ofStream ⟨[bang, name], none⟩) rfl
    (Nat.lt_succ_self 2) (le_refl 23) nofun
  subst hBang hName
  refine ⟨?_, hMoved, ?_⟩
  · obtain hProgram | ⟨e, -, hError⟩ := hOutcome
    · exact hProgram
    · cases hError
  · obtain hTaken | ⟨e, hError⟩ := hTakes
    · exact hTaken
    · cases hError

end Descent

end Tern
