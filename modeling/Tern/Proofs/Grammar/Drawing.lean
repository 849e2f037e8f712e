import Tern.Proofs.Grammar.LastTerminal
import Tern.Proofs.Grammar.Rendering
import Tern.Proofs.Grammar.Row

/-!
# Nodes are drawn from rows

Every parser of the grammar draws the nodes that it yields from the tokens that it takes. A span
is set when its node is made, from the first token of the node, which has been looked at before, to
the token last taken. An expression that comes out of parentheses, or has no operator, keeps the row
that it has.

That a row spells its node is known from the soundness of the parsers.

* `Node.Framed`: the span and the parts of a node fit its row;
* `Grammar.DrawsLevel`: the parsers of a level, and `Grammar.level_draws` those of all levels;
* `Program.drawn_of_stream`: a program is drawn from the tokens of its stream.
-/

namespace Tern

open Terminal (isMark)

namespace Node

/-- Nodes drawn from parts of a row, one behind the other. -/
abbrev InRow (row : List Token) (ns : List Node) : Prop := Spread DrawnFrom row ns

/-- The span of the node is that of the row, and its children are drawn from parts of the row. -/
def Framed (row : List Token) (n : Node) : Prop :=
  n.span = Token.rowSpan row ∧ InRow row n.children

variable {row : List Token} {n : Node}

/-- The children of the one node of a row are in the row themselves. -/
theorem InRow.children (h : InRow row [n]) : InRow row n.children := by
  obtain _ | @⟨gap, row, rest, _, _, hHere, -⟩ := h
  obtain ⟨-, -, -, hParts⟩ := hHere
  exact (hParts.before rest).after gap

end Node

/-- The form of the place inside. -/
theorem Form.At.loose {room : Nat} {ctx : Context} {tier : Nat} {xs : List Terminal} {e : Expr}
    (h : Form.At (forms room) ctx (tier + 1) xs e) : (forms (room + 1)).expression ctx xs e := by
  have hLoose : Form.At (forms room) ctx 1 xs e := h.mono (Nat.le_add_left 1 tier)
  exact hLoose

namespace Grammar

open Tern.Parser Form Node

/-- The parsers of a level draw what they yield from what they take. -/
structure DrawsLevel (l : Level) : Prop where
  expression : ∀ ctx f, Draws [] f (l.expression ctx) fun row _ e => InRow row [.expr e]
  operand : ∀ ctx f, Draws [] f (l.operand ctx) fun row _ e => InRow row [.expr e]
  declaration : ∀ ctx f, Draws [] f (l.declaration ctx) fun row _ s => InRow row [.stmt s]

variable {α β : Type} {taken : List Token} {f : Option Token} {p : Parser α}
  {R : List Token → Option Token → α → Prop} {S : List Token → Option Token → β → Prop}
  {room : Nat} {ctx : Context} {t : Token}

/-- What a parser takes for itself are the terminals of its row. -/
theorem draws_own {R' : List Terminal → Terminal → α → Prop} (h : Draws [] f p R)
    (h' : ∀ f', Shows f f' → Takes f' p R') :
    Draws [] f p fun row n a => R row n a ∧ (∀ t ∈ row, t.kind ≠ .endOfInput) ∧
      ∃ m, R' (row.map Token.terminal) m a := by
  refine draws_mono (draws_words (draws_takes h h')) ?_
  rintro row n a ⟨⟨hR, own, m, rfl, hR'⟩, hWords⟩
  exact ⟨hR, hWords, m, hR'⟩

/-! ## Names and lists -/

theorem draws_ident_bind {wanted : String} {g : Ident → Parser β}
    (hg : ∀ id own n, InRow own [.ident id] → Draws (taken ++ own) n (g id) S) :
    Draws taken f (ident wanted >>= g) S := by
  have hIdent : Draws [] f (ident wanted) fun row _ id => InRow row [.ident id] := by
    refine draws_expect_bind (by decide) fun t n hKind => ?_
    refine draws_spanFrom_bind rfl (draws_pure (.one (.mk ?_ ⟨1, .top, ?_⟩ rfl .done)))
    · intro u hu
      rw [List.mem_singleton.mp hu, hKind]
      decide
    · have hForm : At (forms 0) .top 10 [t.terminal] (.name ⟨t.lexeme, Token.rowSpan [t]⟩) := by
        rw [Token.terminal_name hKind]
        exact .name ⟨t.lexeme, Token.rowSpan [t]⟩
      exact hForm.loose
  exact draws_fresh_bind hIdent fun id own n _ h => hg id own n h

theorem draws_untilClose (mk : α → Node)
    (hItem : ∀ f, Draws [] f p fun row _ a => InRow row [mk a]) :
    Draws [] f (untilClose p) fun row _ as => InRow row (as.map mk) := by
  refine draws_bind (draws_chain (I := fun row _ as => InRow row (as.reverse.map mk)) ?_ .done)
    fun as row n has => draws_pure has
  intro row f as has
  refine draws_atClose_bind fun b => draws_ite (fun _ => ?_) fun _ => ?_
  · exact draws_pure ⟨fun _ => has, nofun⟩
  · refine draws_pure ⟨nofun, fun _ _ => ?_⟩
    refine draws_fresh_bind (hItem f) fun a own n _ ha => draws_pure ?_
    simpa using has.append ha

theorem draws_commaSeparated {close : TokenKind} {item : List α → Parser α} {mk : α → Node}
    (hItem : ∀ before f, Draws [] f (item before) fun row _ a => InRow row [mk a]) :
    Draws [] f (commaSeparated close item) fun row _ as => InRow row (as.map mk) := by
  refine draws_check_bind fun b _ => draws_ite (fun _ => draws_pure .done) fun _ => ?_
  refine draws_bind (hItem [] f) fun a row n ha => ?_
  refine draws_bind (draws_chain (I := fun row _ as => InRow row (as.reverse.map mk)) ?_ ha)
    fun as row n has => draws_pure has
  intro row f as has
  refine draws_accept_bind (by decide) (fun t n _ => ?_) (draws_pure ⟨fun _ => has, nofun⟩)
  refine draws_pure ⟨nofun, fun _ _ => ?_⟩
  refine draws_fresh_bind (hItem as n) fun a own n _ ha => draws_pure ?_
  simpa using (has.before [t]).append ha

/-! ## Expressions -/

theorem drawn_expr {row : List Token} {e : Expr} {tier : Nat}
    (hWords : ∀ t ∈ row, t.kind ≠ .endOfInput)
    (hForm : At (forms room) ctx (tier + 1) (row.map Token.terminal) e)
    (hFramed : Framed row (.expr e)) : (Node.expr e).DrawnFrom row :=
  .mk hWords ⟨room + 1, ctx, hForm.loose⟩ hFramed.1 hFramed.2

/-- The parser draws expressions that bind at least as tightly as a tier. -/
def DrawsAt (room : Nat) (ctx : Context) (tier : Nat) (p : Parser Expr) : Prop :=
  ∀ f, Draws [] f p fun row _ e =>
    At (forms room) ctx tier (row.map Token.terminal) e ∧ InRow row [.expr e]

theorem drawsAt_of_takes {p : Parser Expr} {tier : Nat}
    (h : ∀ f, Draws [] f p fun row _ e => Framed row (.expr e) ∨ InRow row [.expr e])
    (hForm : ∀ f, Takes f p fun xs _ e => At (forms room) ctx (tier + 1) xs e) :
    DrawsAt room ctx (tier + 1) p := by
  intro f
  refine draws_mono (draws_own (h f) fun f' _ => hForm f') ?_
  rintro row n e ⟨hRaw, hWords, m, hAt⟩
  exact ⟨hAt, hRaw.elim (fun hFramed => .one (drawn_expr hWords hAt hFramed)) id⟩

variable (hl : DrawsLevel (level room))

include hl

theorem draws_expressions {close : TokenKind} :
    Draws [] f (commaSeparated close fun _ => (level room).expression ctx) fun row _ es =>
      InRow row (es.map .expr) :=
  draws_commaSeparated fun _ f => hl.expression ctx f

theorem drawsAt_primary : DrawsAt room ctx 10 (primary (level room) ctx) := by
  refine drawsAt_of_takes (fun f => draws_peek_bind fun t hSeen => ?_) fun f =>
    (completes_primary (level_sound room).completes).takes
  have hAhead : ∀ {kind}, t.kind = kind → kind ≠ .endOfInput → f = some t :=
    fun h hKind => hSeen.eq (h ▸ hKind)
  have hLeaf : ∀ {e : Option Span → Expr}, t.kind ≠ .endOfInput →
      (∀ s, (e s).span = s ∧ Node.ofExpr (e s) = []) →
      Draws [] f (do let _ ← advance; pure (e (← spanFrom t))) fun row _ e =>
        Framed row (.expr e) ∨ InRow row [.expr e] := by
    intro e hKind he
    rw [hSeen.eq hKind]
    refine draws_advance_bind hKind fun n => draws_spanFrom_bind rfl (draws_pure (.inl ?_))
    refine ⟨(he _).1, ?_⟩
    rw [Node.children, (he _).2]
    exact .done
  split
  case h_6 h =>
    obtain rfl := hAhead h (by decide)
    refine draws_advance_bind (by simp [h]) fun n => ?_
    refine draws_ite (fun _ => draws_failAt _ _) fun _ => ?_
    exact draws_spanFrom_bind rfl (draws_pure (.inl ⟨rfl, .done⟩))
  case h_7 h =>
    obtain rfl := hAhead h (by decide)
    refine draws_advance_bind (by simp [h]) fun n => ?_
    unfold superExpr
    split
    · exact draws_failAt _ _
    · exact draws_failAt _ _
    · refine draws_expect_bind (by decide) fun u n _ => draws_ident_bind fun m own n hm => ?_
      exact draws_spanFrom_bind rfl (draws_pure (.inl ⟨rfl, hm.after _⟩))
  case h_9 h =>
    obtain rfl := hAhead h (by decide)
    refine draws_advance_bind (by simp [h]) fun n => ?_
    refine draws_fresh_bind (hl.expression ctx n) fun e own n _ he => ?_
    exact draws_expect_bind (by decide) fun u n _ =>
      draws_pure (.inr ((he.after _).before _))
  case h_10 h =>
    obtain rfl := hAhead h (by decide)
    refine draws_advance_bind (by simp [h]) fun n => ?_
    refine draws_fresh_bind (draws_expressions hl) fun es own n _ hes => ?_
    refine draws_expect_bind (by decide) fun u n _ => ?_
    exact draws_spanFrom_bind rfl (draws_pure (.inl ⟨rfl, (hes.after _).before _⟩))
  case h_11 => exact draws_failAt _ _
  all_goals exact hLeaf (by simp [*]) fun s => ⟨rfl, rfl⟩

theorem draws_suffixed {start : Token} {e : Expr} {row : List Token} {suffix : Suffix}
    (hHead : row.head? = some start) (he : InRow row [.expr e]) :
    Draws (row ++ [t]) f (suffixed (level room) ctx start e suffix) fun row _ e' =>
      Framed row (.expr e') := by
  cases suffix with
  | call =>
    refine draws_fresh_bind (draws_expressions hl) fun args own n _ hArgs => ?_
    refine draws_expect_bind (by decide) fun u n _ => ?_
    refine draws_spanFrom_bind (by simp [hHead]) (draws_pure ⟨rfl, ?_⟩)
    exact ((he.before [t]).append hArgs).before [u]
  | member =>
    refine draws_ident_bind fun m own n hm => ?_
    refine draws_spanFrom_bind (by simp [hHead]) (draws_pure ⟨rfl, ?_⟩)
    exact (he.before [t]).append hm
  | index =>
    refine draws_fresh_bind (hl.expression ctx f) fun i own n _ hi => ?_
    refine draws_expect_bind (by decide) fun u n _ => ?_
    refine draws_spanFrom_bind (by simp [hHead]) (draws_pure ⟨rfl, ?_⟩)
    exact ((he.before [t]).append hi).before [u]

omit hl in
/-- A start and rounds, each of which begins with a mark, and ends in a node with all that was taken
since the start. -/
theorem draws_chained {p : Parser Expr} {wanted : TokenKind → Option β}
    {step : Expr → β → Parser Expr} {round : Expr → List Terminal → Expr → Prop} {tier : Nat}
    {start : Token} (hTier : OfTier wanted (tier + 1))
    (hForm : ∀ xs e, Chained (At (forms room) ctx (tier + 2)) round xs e →
      At (forms room) ctx (tier + 1) xs e)
    (hSeen : Seen start f) (hStart : DrawsAt room ctx (tier + 2) p)
    (hStep : ∀ e t b row f, wanted t.kind = some b → row.head? = some start →
      InRow row [.expr e] → Draws (row ++ [t]) f (step e b) fun row' _ e' =>
        Framed row' (.expr e') ∧ ∃ own, row' = row ++ [t] ++ own ∧
          round e (.mark t.kind :: own.map Token.terminal) e') :
    Draws [] f (p >>= fun e => chain (acceptAs wanted) step e) fun row _ e =>
      At (forms room) ctx (tier + 1) (row.map Token.terminal) e ∧ InRow row [.expr e] := by
  refine draws_first_bind (hStart f) fun e row n hHead he => ?_
  have hFirst := hSeen.first hHead (forms_expression_opens _ e he.1.loose)
  refine draws_mono (draws_chain (I := fun row _ e =>
    Chained (At (forms room) ctx (tier + 2)) round (row.map Token.terminal) e ∧
      row.head? = some start ∧ InRow row [.expr e]) ?_ ⟨.start he.1, hFirst, he.2⟩) ?_
  · rintro row f e ⟨hChained, hFirst, he⟩
    have hEnd : wanted .endOfInput = none := hTier.eq_none (Nat.ne_of_lt hTier.pos)
    refine draws_mono (draws_acceptAs hEnd) ?_
    rintro _ n b (⟨rfl, rfl, rfl⟩ | ⟨t, b, rfl, rfl, hb⟩)
    · exact ⟨fun _ => ⟨hChained, hFirst, he⟩, nofun⟩
    · refine ⟨nofun, ?_⟩
      rintro _ ⟨⟩
      refine draws_mono (draws_words (hStep e t b row n hb hFirst he)) ?_
      rintro _ n e' ⟨⟨hFramed, own, rfl, hRound⟩, hWords⟩
      have hMark : t.terminal = .mark t.kind :=
        Terminal.eq_mark (hTier.isMark hb) (Token.kind_terminal t)
      have hLonger := hChained.snoc hRound
      rw [← hMark] at hLonger
      have hRow : Chained (At (forms room) ctx (tier + 2)) round
          ((row ++ [t] ++ own).map Token.terminal) e' := by simpa using hLonger
      refine ⟨hRow, by simp [hFirst], .one (drawn_expr hWords (hForm _ _ hRow) hFramed)⟩
  · rintro row n e ⟨hChained, -, he⟩
    exact ⟨hForm _ _ hChained, he⟩

theorem drawsAt_call : DrawsAt room ctx 9 (call (level room) ctx) := by
  intro f
  refine draws_peek_bind fun start hSeen => ?_
  refine draws_chained ofTier_suffix (fun _ _ h => h) hSeen (drawsAt_primary hl)
    fun e t b row f hb hFirst he => ?_
  refine draws_mono (draws_takes (draws_suffixed hl hFirst he) fun f' _ =>
    (completes_suffixed (level_sound room).completes hb).takes) ?_
  rintro row' n e' ⟨hFramed, own, m, rfl, hRound⟩
  exact ⟨hFramed, own, rfl, hRound⟩

omit hl in
theorem drawsAt_leftAssoc {op : TokenKind → Option β} {join : β → Expr → Expr → Option Span → Expr}
    {operand : Parser Expr} {tier : Nat} (hTier : OfTier op (tier + 1))
    (hForm : ∀ xs e, LeftAssoc op join (At (forms room) ctx (tier + 2)) xs e →
      At (forms room) ctx (tier + 1) xs e)
    (hJoin : ∀ b l r s, (join b l r s).span = s ∧ Node.ofExpr (join b l r s) = [.expr l, .expr r])
    (hOperand : DrawsAt room ctx (tier + 2) operand) :
    DrawsAt room ctx (tier + 1) (leftAssoc op join operand) := by
  intro f
  refine draws_peek_bind fun start hSeen => ?_
  refine draws_chained hTier hForm hSeen hOperand fun l t b row f hb hFirst hLeft => ?_
  refine draws_fresh_bind (hOperand f) fun r own n _ hRight => ?_
  refine draws_spanFrom_bind (by simp [hFirst]) (draws_pure ⟨⟨(hJoin b l r _).1, ?_⟩, ?_⟩)
  · rw [Node.children, (hJoin b l r _).2]
    exact (hLeft.before [t]).append hRight.2
  · exact ⟨own, rfl, .mk _ hb hRight.1⟩

theorem drawsAt_unary : DrawsAt room ctx 8 (unary (level room) ctx) := by
  refine drawsAt_of_takes (fun f => draws_peek_bind fun t hSeen => ?_) fun f =>
    (completes_unary (level_sound room).completes f).takes
  split
  · next op hOp =>
    have hKind : t.kind ≠ .endOfInput := fun hKind => by
      rw [hKind] at hOp
      cases hOp
    rw [hSeen.eq hKind]
    refine draws_advance_bind hKind fun n => ?_
    refine draws_fresh_bind (hl.operand ctx n) fun e own n _ he => ?_
    exact draws_spanFrom_bind rfl (draws_pure (.inl ⟨rfl, he.after _⟩))
  · exact draws_mono (drawsAt_call hl f) fun _ _ _ he => .inr he.2

theorem drawsAt_logicOr : DrawsAt room ctx 2 (logicOr (level room) ctx) := by
  refine drawsAt_leftAssoc ofTier_or (fun _ _ h => h) (fun _ _ _ _ => ⟨rfl, rfl⟩) ?_
  refine drawsAt_leftAssoc ofTier_and (fun _ _ h => h) (fun _ _ _ _ => ⟨rfl, rfl⟩) ?_
  refine drawsAt_leftAssoc ofTier_equality (fun _ _ h => h) (fun _ _ _ _ => ⟨rfl, rfl⟩) ?_
  refine drawsAt_leftAssoc ofTier_comparison (fun _ _ h => h) (fun _ _ _ _ => ⟨rfl, rfl⟩) ?_
  refine drawsAt_leftAssoc ofTier_term (fun _ _ h => h) (fun _ _ _ _ => ⟨rfl, rfl⟩) ?_
  exact drawsAt_leftAssoc ofTier_factor (fun _ _ h => h) (fun _ _ _ _ => ⟨rfl, rfl⟩)
    (drawsAt_unary hl)

omit hl in
/-- An assignment has its span, and what comes before the value is the target or its parts. -/
theorem assignTo_parts {row : List Token} {target value e : Expr} {s : Option Span}
    (h : assignTo? target value s = some e) (hTarget : InRow row [.expr target]) :
    e.span = s ∧ ∃ ns, InRow row ns ∧ Node.ofExpr e = ns ++ [.expr value] := by
  unfold assignTo? at h
  split at h <;> cases h
  · exact ⟨rfl, _, hTarget, rfl⟩
  · exact ⟨rfl, _, hTarget.children, rfl⟩
  · exact ⟨rfl, _, hTarget.children, rfl⟩

theorem drawsAt_assignment : DrawsAt room ctx 1 (assignment (level room) ctx) := by
  refine drawsAt_of_takes (fun f => draws_peek_bind fun start hSeen => ?_) fun f =>
    takes_assignment (level_sound room) f
  refine draws_first_bind (drawsAt_logicOr hl f) fun target row n hHead hTarget => ?_
  have hFirst := hSeen.first hHead (forms_expression_opens _ target hTarget.1.loose)
  refine draws_check_bind fun b hb => draws_ite (fun hTrue => ?_) fun _ =>
    draws_pure (.inr hTarget.2)
  obtain ⟨t, hAhead, hKind⟩ := hb hTrue
  have hEnd : t.kind ≠ .endOfInput := by simp [hKind]
  rw [hAhead.eq hEnd]
  refine draws_advance_bind hEnd fun n => ?_
  refine draws_fresh_bind (hl.expression ctx n) fun value own n _ hValue => ?_
  refine draws_spanFrom_bind (by simp [hFirst]) ?_
  split
  · next e hAssign =>
    obtain ⟨hSpan, ns, hBefore, hParts⟩ := assignTo_parts hAssign hTarget.2
    refine draws_pure (.inl ⟨hSpan, ?_⟩)
    rw [Node.children, hParts]
    exact (hBefore.before [t]).append hValue
  · exact draws_failAt _ _

theorem draws_expression {f : Option Token} :
    Draws [] f ((level room).expression ctx) fun row _ e => InRow row [.expr e] ∧
      (∀ t ∈ row, t.kind ≠ .endOfInput) ∧ (forms room).expression ctx (row.map Token.terminal) e :=
  draws_mono (draws_own (hl.expression ctx f) fun f' _ => (level_sound room).expression ctx f')
    fun _ _ _ ⟨he, hWords, _, hForm⟩ => ⟨he, hWords, hForm⟩

/-! ## Statements -/

omit hl in
theorem drawn_stmt {row : List Token} {s : Stmt} {suitable : TokenKind → Bool}
    (hWords : ∀ t ∈ row, t.kind ≠ .endOfInput)
    (hForm : Statement (forms room) ctx (row.map Token.terminal) (.mark .rightBrace) s)
    (hEnds : Ends suitable (row.map Token.terminal)) (hNot : suitable .semicolon = false)
    (hFramed : Framed row (.stmt s)) : (Node.stmt s).DrawnFrom row := by
  refine .mk hWords ⟨⟨room + 1, ctx, hForm⟩, fun t ht hKind => ?_⟩ hFramed.1 hFramed.2
  have hLast := hEnds.last ht
  rw [hKind, hNot] at hLast
  cases hLast

omit hl in
/-- A statement without a terminator. -/
theorem draws_closed {k : α → Stmt}
    (h : Draws [] f p fun row _ a => Framed row (.stmt (k a)) ∧ (k a).isTerminated = false)
    (h' : ∀ f', Shows f f' → Takes f' p fun xs n a => Statement (forms room) ctx xs n (k a)) :
    Draws [] f p fun row _ a => InRow row [.stmt (k a)] := by
  refine draws_mono (draws_own h h') ?_
  rintro row n a ⟨⟨hFramed, hClosed⟩, hWords, m, hForm⟩
  exact .one (drawn_stmt hWords (hForm.closes (.inl rfl)) (hForm.ends hClosed) rfl hFramed)

omit hl in
theorem omitted_before_brace : Terminated [] (.mark .rightBrace) := .omitted (.inl rfl)

omit hl in
/-- A simple statement, whose terminator is still to come. -/
theorem draws_plain {p : Parser Simple}
    (h : Draws [] f p fun row _ s => Framed row (.stmt (.simple s)))
    (h' : ∀ f', Shows f f' → Takes f' p fun xs _ s => Plain (forms room) ctx xs s) :
    Draws [] f p fun row _ s => InRow row [.stmt (.simple s)] := by
  refine draws_mono (draws_own h h') ?_
  rintro row n s ⟨hFramed, hWords, m, hPlain⟩
  have hForm := Statement.simple hPlain omitted_before_brace
  rw [List.append_nil] at hForm
  exact .one (drawn_stmt hWords hForm (hPlain.ends forms_expression_ends) rfl hFramed)

omit hl in
/-- The terminator is not part of the statement. -/
theorem draws_terminated {s : Stmt} (h : InRow taken [.stmt s]) :
    Draws taken f (terminated s) fun row _ s' => InRow row [.stmt s'] := by
  refine draws_accept_bind (by decide) (fun t n _ => draws_pure (h.before [t])) ?_
  refine draws_atClose_bind fun b => draws_ite (fun _ => draws_pure h) fun _ => ?_
  exact draws_peek_bind fun t _ => draws_failAt _ _

theorem draws_block {what : String} :
    Draws [] f (block (level room) ctx what) fun row _ b => InRow row [.block b] := by
  refine draws_closed ?_ fun f' _ =>
    takes_mono (completes_block (level_sound room).completes f').takes fun _ _ _ hb => .block hb
  refine draws_expect_bind (by decide) fun t n _ => ?_
  refine draws_fresh_bind (draws_untilClose .stmt (hl.declaration ctx)) fun body own n _ hBody => ?_
  refine draws_expect_bind (by decide) fun u n _ => ?_
  refine draws_spanFrom_bind rfl (draws_pure ⟨⟨rfl, ?_⟩, rfl⟩)
  exact (hBody.after [t]).before [u]

theorem draws_parenthesized {keyword : String} :
    Draws [] f (parenthesized (level room) ctx keyword) fun row _ e => InRow row [.expr e] := by
  refine draws_expect_bind (by decide) fun t n _ => ?_
  refine draws_fresh_bind (hl.expression ctx n) fun e own n _ he => ?_
  exact draws_expect_bind (by decide) fun u n _ => draws_pure ((he.after [t]).before [u])

omit hl in
theorem draws_param (before : List Ident) (f : Option Token) :
    Draws [] f (param before) fun row _ id => InRow row [.ident id] := by
  refine draws_ident_bind fun id own n hId => draws_ite (fun _ => ?_) fun _ => draws_pure hId
  exact draws_previous_bind fun t s => ⟨_, rfl⟩

theorem draws_funcDef {what : String} (ht : t.kind = .kwFunc) :
    Draws [] (some t) (funcDef (level room) ctx what) fun row _ fn =>
      InRow row [.stmt (.func fn)] := by
  refine draws_closed (draws_advance_bind (by simp [ht]) fun n => ?_) fun f' hf =>
    hf.takes ht rfl (takes_mono (completes_funcDef (level_sound room).completes).takes
      fun _ _ _ h => .func h)
  refine draws_ident_bind fun id own n hId => draws_expect_bind (by decide) fun u n _ => ?_
  refine draws_fresh_bind (draws_commaSeparated draws_param) fun params own n _ hParams => ?_
  refine draws_expect_bind (by decide) fun v n _ => ?_
  refine draws_fresh_bind (draws_block hl) fun body own n _ hBody => ?_
  refine draws_spanFrom_bind (by simp) (draws_pure ⟨⟨rfl, ?_⟩, rfl⟩)
  exact ((((hId.after [t]).before [u]).append hParams).before [v]).append hBody

omit hl in
theorem draws_superclass {id : Ident} :
    Draws [] f (superclass id) fun row _ parent => InRow row (parent.map Node.ident).toList := by
  refine draws_accept_bind (by decide) (fun t n _ => ?_) (draws_pure .done)
  refine draws_ident_bind fun parent own n hParent => draws_ite (fun _ => ?_) fun _ => ?_
  · exact draws_previous_bind fun t s => ⟨_, rfl⟩
  · exact draws_pure (hParent.after [t])

theorem draws_method (f : Option Token) :
    Draws [] f (method (level room) ctx) fun row _ fn => InRow row [.stmt (.func fn)] := by
  refine draws_peek_bind fun t hSeen => draws_ite (fun ht => ?_) fun _ => draws_failAt _ _
  rw [hSeen.eq (by simp [ht])]
  exact draws_funcDef hl ht

theorem draws_classDef (ht : t.kind = .kwClass) :
    Draws [] (some t) (classDef (level room) ctx) fun row _ c => InRow row [.stmt (.cls c)] := by
  refine draws_closed (draws_advance_bind (by simp [ht]) fun n => ?_) fun f' hf =>
    hf.takes ht rfl (takes_mono (completes_classDef (level_sound room).completes).takes
      fun _ _ _ h => .cls h)
  refine draws_ident_bind fun id own n hId => ?_
  refine draws_fresh_bind draws_superclass fun parent own n _ hParent => ?_
  refine draws_expect_bind (by decide) fun u n _ => ?_
  refine draws_fresh_bind (draws_untilClose (.stmt ∘ .func) (draws_method hl))
    fun methods own n _ hMethods => ?_
  refine draws_expect_bind (by decide) fun v n _ => ?_
  refine draws_spanFrom_bind (by simp) (draws_pure ⟨⟨rfl, ?_⟩, rfl⟩)
  exact ((((hId.after [t]).append hParent).before [u]).append hMethods).before [v]

theorem draws_varDecl (ht : t.kind = .kwVar) :
    Draws [] (some t) (varDecl (level room) ctx) fun row _ s => InRow row [.stmt (.simple s)] := by
  refine draws_plain (draws_advance_bind (by simp [ht]) fun n => ?_) fun f' hf =>
    hf.takes ht rfl (completes_varDecl (level_sound room).completes).takes
  refine draws_ident_bind fun id own n hId => ?_
  refine draws_accept_bind (by decide) (fun u n _ => ?_) ?_
  · refine draws_fresh_bind (R := fun row _ v => InRow row (v.map .expr).toList)
      (draws_map (hl.expression ctx n)) fun v own n _ hv => ?_
    refine draws_spanFrom_bind (by simp) (draws_pure ⟨rfl, ?_⟩)
    exact ((hId.after [t]).before [u]).append hv
  · exact draws_spanFrom_bind (g := fun s => pure (Simple.var id none s)) (by simp)
      (draws_pure ⟨rfl, hId.after [t]⟩)

theorem draws_constDecl (ht : t.kind = .kwConst) :
    Draws [] (some t) (constDecl (level room) ctx) fun row _ s =>
      InRow row [.stmt (.simple s)] := by
  refine draws_plain (draws_advance_bind (by simp [ht]) fun n => ?_) fun f' hf =>
    hf.takes ht rfl (completes_constDecl (level_sound room).completes).takes
  refine draws_ident_bind fun id own n hId => draws_expect_bind (by decide) fun u n _ => ?_
  refine draws_fresh_bind (hl.expression ctx n) fun v own n _ hv => ?_
  refine draws_spanFrom_bind (by simp) (draws_pure ⟨rfl, ?_⟩)
  exact ((hId.after [t]).before [u]).append hv

theorem draws_exprStmt :
    Draws [] f (exprStmt (level room) ctx) fun row _ s => InRow row [.stmt (.simple s)] := by
  refine draws_plain (draws_peek_bind fun start hSeen => ?_) fun f' _ =>
    (completes_exprStmt (level_sound room).completes).takes
  refine draws_first_bind (draws_expression hl) fun e row n hHead he => ?_
  have hFirst := hSeen.first hHead (forms_expression_opens _ e he.2.2)
  exact draws_spanFrom_bind hFirst (draws_pure ⟨rfl, he.1⟩)

/-! ### Control flow -/

theorem draws_elifClause (ht : t.kind = .kwElif) :
    Draws [] (some t) (elifClause (level room) ctx) fun row _ c => InRow row [.elif c] := by
  have hFramed : Draws [] (some t) (elifClause (level room) ctx) fun row _ c =>
      Framed row (.elif c) := by
    refine draws_advance_bind (by simp [ht]) fun n => ?_
    refine draws_fresh_bind (draws_parenthesized hl) fun c own n _ hc => ?_
    refine draws_fresh_bind (draws_block hl) fun body own n _ hBody => ?_
    refine draws_spanFrom_bind (by simp) (draws_pure ⟨rfl, ?_⟩)
    exact (hc.after [t]).append hBody
  refine draws_mono (draws_own hFramed fun f' hf => hf.takes ht rfl
    (completes_elifClause (level_sound room).completes).takes) ?_
  rintro row n c ⟨⟨hSpan, hParts⟩, hWords, m, hArm⟩
  exact .one (.mk hWords ⟨room, ctx, hArm⟩ hSpan hParts)

theorem draws_elifClauses :
    Draws [] f (elifClauses (level room) ctx) fun row _ cs => InRow row (cs.map .elif) := by
  refine draws_bind (draws_chain (I := fun row _ cs => InRow row (cs.reverse.map .elif)) ?_ .done)
    fun cs row n hcs => draws_pure hcs
  intro row f cs hcs
  refine draws_check_bind fun b hb => draws_ite (fun hTrue => ?_) fun _ =>
    draws_pure ⟨fun _ => hcs, nofun⟩
  obtain ⟨t, hSeen, ht⟩ := hb hTrue
  rw [hSeen.eq (by simp [ht])]
  refine draws_pure ⟨nofun, fun _ _ => ?_⟩
  refine draws_fresh_bind (draws_elifClause hl ht) fun c own n _ hc => draws_pure ?_
  simpa using hcs.append hc

theorem draws_ifStmt (ht : t.kind = .kwIf) :
    Draws [] (some t) (ifStmt (level room) ctx) fun row _ s => InRow row [.stmt s] := by
  refine draws_closed (k := id) (draws_advance_bind (by simp [ht]) fun n => ?_) fun f' hf =>
    hf.takes ht rfl (completes_ifStmt (level_sound room).completes).takes
  refine draws_fresh_bind (draws_parenthesized hl) fun c own n _ hc => ?_
  refine draws_fresh_bind (draws_block hl) fun body own n _ hBody => ?_
  refine draws_fresh_bind (draws_elifClauses hl) fun elifs own n _ hElifs => ?_
  have hParts := ((hc.after [t]).append hBody).append hElifs
  refine draws_accept_bind (by decide) (fun u n _ => ?_) ?_
  · refine draws_fresh_bind (R := fun row _ e => InRow row (e.map Node.block).toList)
      (draws_map (draws_block hl)) fun e own n _ he => ?_
    refine draws_spanFrom_bind (by simp) (draws_pure ⟨⟨rfl, ?_⟩, rfl⟩)
    exact (hParts.before [u]).append he
  · refine draws_spanFrom_bind (g := fun s => pure (Stmt.ifElse c body elifs none s))
      (by simp) (draws_pure ⟨⟨rfl, ?_⟩, rfl⟩)
    simpa [Node.children, Node.ofStmt] using hParts

theorem draws_whileStmt (ht : t.kind = .kwWhile) :
    Draws [] (some t) (whileStmt (level room) ctx) fun row _ s => InRow row [.stmt s] := by
  refine draws_closed (k := id) (draws_advance_bind (by simp [ht]) fun n => ?_) fun f' hf =>
    hf.takes ht rfl (completes_whileStmt (level_sound room).completes).takes
  refine draws_fresh_bind (draws_parenthesized hl) fun c own n _ hc => ?_
  refine draws_fresh_bind (draws_block hl) fun body own n _ hBody => ?_
  refine draws_spanFrom_bind (by simp) (draws_pure ⟨⟨rfl, ?_⟩, rfl⟩)
  exact (hc.after [t]).append hBody

theorem draws_forStart :
    Draws [] f (forStart (level room) ctx) fun row _ s =>
      InRow row (s.map (Node.stmt ∘ .simple)).toList := by
  refine draws_peek_bind fun t hSeen => ?_
  split
  · next ht =>
    rw [hSeen.eq (by simp [ht])]
    exact draws_map (draws_varDecl hl ht)
  · next ht =>
    rw [hSeen.eq (by simp [ht])]
    exact draws_map (draws_constDecl hl ht)
  · exact draws_pure .done
  · exact draws_map (draws_exprStmt hl)

theorem draws_optionalBefore {close : TokenKind} :
    Draws [] f (optionalBefore (level room) ctx close) fun row _ e =>
      InRow row (e.map .expr).toList := by
  refine draws_check_bind fun b _ => draws_ite (fun _ => draws_pure .done) fun _ => ?_
  exact draws_map (hl.expression ctx f)

theorem draws_forStmt (ht : t.kind = .kwFor) :
    Draws [] (some t) (forStmt (level room) ctx) fun row _ s => InRow row [.stmt s] := by
  refine draws_closed (k := id) (draws_advance_bind (by simp [ht]) fun n => ?_) fun f' hf =>
    hf.takes ht rfl (completes_forStmt (level_sound room).completes).takes
  refine draws_expect_bind (by decide) fun u n _ => ?_
  refine draws_fresh_bind (draws_forStart hl) fun i own n _ hi => ?_
  refine draws_expect_bind (by decide) fun v n _ => ?_
  refine draws_fresh_bind (draws_optionalBefore hl) fun c own n _ hc => ?_
  refine draws_expect_bind (by decide) fun w n _ => ?_
  refine draws_fresh_bind (draws_optionalBefore hl) fun x own n _ hx => ?_
  refine draws_expect_bind (by decide) fun y n _ => ?_
  refine draws_fresh_bind (draws_block hl) fun body own n _ hBody => ?_
  refine draws_spanFrom_bind (by simp) (draws_pure ⟨⟨rfl, ?_⟩, rfl⟩)
  have hClauses := (((hi.after [t, u]).before [v]).append hc).before [w]
  have hParts := ((hClauses.append hx).before [y]).append hBody
  simpa [Node.children, Node.ofStmt] using hParts

omit hl in
/-- A keyword and what it governs, before the terminator. -/
theorem draws_governed {kind : TokenKind} {own : List Token} {s : Stmt} (ht : t.kind = kind)
    (hMark : isMark kind = true) (hWords : ∀ u ∈ own, u.kind ≠ .endOfInput)
    (hForm : Statement (forms room) ctx (.mark kind :: own.map Token.terminal)
      (.mark .rightBrace) s)
    (hEnds : Ends endsStatement (.mark kind :: own.map Token.terminal))
    (hFramed : Framed (t :: own) (.stmt s)) :
    Draws (t :: own) f (terminated s) fun row _ s' => InRow row [.stmt s'] := by
  have hKeyword : t.terminal = .mark kind :=
    Terminal.eq_mark hMark (by rw [Token.kind_terminal, ht])
  have hRow : (t :: own).map Token.terminal = .mark kind :: own.map Token.terminal := by
    rw [List.map_cons, hKeyword]
  have hAll : ∀ u ∈ t :: own, u.kind ≠ .endOfInput :=
    List.forall_mem_cons.mpr ⟨ht ▸ Terminal.ne_end_of_isMark hMark, hWords⟩
  rw [← hRow] at hForm hEnds
  exact draws_terminated (.one (drawn_stmt hAll hForm hEnds rfl hFramed))

omit hl in
/-- A `break` or `continue`. -/
theorem draws_loopExit {kind : TokenKind} {k : Option Span → Stmt} {cause : ParseCause}
    (ht : t.kind = kind) (hMark : isMark kind = true) (hEnds : endsStatement kind = true)
    (hForm : ∀ v, ctx.inLoop = true → ∀ ys n, Terminated ys n →
      Statement (forms 0) ctx (.mark kind :: ys) n (k v))
    (hLeaf : ∀ v, (k v).span = v ∧ Node.ofStmt (k v) = []) :
    Draws [] (some t) (do
      let keyword ← advance
      if ctx.inLoop then terminated (k (← spanFrom keyword))
      else failAt keyword cause) fun row _ s => InRow row [.stmt s] := by
  refine draws_advance_bind (ht ▸ Terminal.ne_end_of_isMark hMark) fun n => ?_
  refine draws_ite (fun hLoop => ?_) fun _ => draws_failAt _ _
  refine draws_spanFrom_bind rfl (draws_governed ht hMark nofun
    (hForm _ hLoop [] _ (.omitted (.inl rfl))) ⟨[], _, rfl, hEnds⟩ ⟨(hLeaf _).1, ?_⟩)
  rw [Node.children, (hLeaf _).2]
  exact .done

theorem draws_returnValue :
    Draws [] f (returnValue (level room) ctx) fun row _ e => InRow row (e.map .expr).toList ∧
      (∀ t ∈ row, t.kind ≠ .endOfInput) ∧
        Optional ((forms room).expression ctx) (row.map Token.terminal) e := by
  refine draws_mono (draws_own (R := fun row _ e => InRow row (e.map .expr).toList) ?_ fun f' _ =>
    (completes_returnValue (level_sound room).completes).takes)
    fun _ _ _ ⟨he, hWords, _, hForm⟩ => ⟨he, hWords, hForm⟩
  refine draws_check_bind fun b _ => draws_ite (fun _ => draws_pure .done) fun _ => ?_
  refine draws_atClose_bind fun b => draws_ite (fun _ => draws_pure .done) fun _ => ?_
  exact draws_map (hl.expression ctx f)

theorem draws_tryStmt (ht : t.kind = .kwTry) :
    Draws [] (some t) (tryStmt (level room) ctx) fun row _ s => InRow row [.stmt s] := by
  refine draws_closed (k := id) (draws_advance_bind (by simp [ht]) fun n => ?_) fun f' hf =>
    hf.takes ht rfl (completes_tryStmt (level_sound room).completes).takes
  refine draws_fresh_bind (draws_block hl) fun body own n _ hBody => ?_
  refine draws_expect_bind (by decide) fun u n _ => draws_expect_bind (by decide) fun v n _ => ?_
  refine draws_ident_bind fun param own n hParam => draws_expect_bind (by decide) fun w n _ => ?_
  refine draws_fresh_bind (draws_block hl) fun handler own n _ hHandler => ?_
  refine draws_spanFrom_bind (by simp) (draws_pure ⟨⟨rfl, ?_⟩, rfl⟩)
  have hTried := ((hBody.after [t]).before [u]).before [v]
  exact ((hTried.append hParam).before [w]).append hHandler

theorem draws_returnStmt (ht : t.kind = .kwReturn) :
    Draws [] (some t) (returnStmt (level room) ctx) fun row _ s => InRow row [.stmt s] := by
  refine draws_advance_bind (by simp [ht]) fun n => ?_
  refine draws_ite (fun hFunction => ?_) fun _ => draws_failAt _ _
  refine draws_fresh_bind (draws_returnValue hl) fun e own n _ ⟨he, hWords, hForm⟩ => ?_
  have hKeyword : Ends endsStatement [.mark .kwReturn] := ⟨[], _, rfl, rfl⟩
  have hStatement := Statement.ret (Token.rowSpan (t :: own)) hFunction hForm
    omitted_before_brace
  rw [List.append_nil] at hStatement
  exact draws_spanFrom_bind rfl (draws_governed ht rfl hWords hStatement
    (hKeyword.append ((hForm.ends forms_expression_ends).imp_right Ends.statement))
    ⟨rfl, he.after [t]⟩)

theorem draws_throwStmt (ht : t.kind = .kwThrow) :
    Draws [] (some t) (throwStmt (level room) ctx) fun row _ s => InRow row [.stmt s] := by
  refine draws_advance_bind (by simp [ht]) fun n => ?_
  refine draws_fresh_bind (draws_expression hl) fun e own n _ ⟨he, hWords, hForm⟩ => ?_
  have hStatement := Statement.throw (Token.rowSpan (t :: own)) hForm
    omitted_before_brace
  rw [List.append_nil] at hStatement
  exact draws_spanFrom_bind rfl (draws_governed ht rfl hWords hStatement
    ((forms_expression_ends _ _ hForm).statement.cons _) ⟨rfl, he.after [t]⟩)

omit hl in
/-- A simple statement and its terminator. -/
theorem draws_simple {p : Parser Simple}
    (hp : Draws [] f p fun row _ s => InRow row [.stmt (.simple s)]) :
    Draws [] f (p >>= fun s => terminated (.simple s)) fun row _ s => InRow row [.stmt s] :=
  draws_bind hp fun _ _ _ hs => draws_terminated hs

theorem draws_declaration (f : Option Token) :
    Draws [] f (declaration (level room) ctx) fun row _ s => InRow row [.stmt s] := by
  refine draws_peek_bind fun t hSeen => ?_
  split
  case h_14 => exact draws_simple (draws_exprStmt hl)
  all_goals rw [hSeen.eq (by simp [*])]
  case h_1 ht => exact draws_map (draws_classDef hl ht)
  case h_2 ht => exact draws_map (draws_funcDef hl ht)
  case h_3 ht => exact draws_simple (draws_varDecl hl ht)
  case h_4 ht => exact draws_simple (draws_constDecl hl ht)
  case h_5 ht => exact draws_ifStmt hl ht
  case h_6 ht => exact draws_whileStmt hl ht
  case h_7 ht => exact draws_forStmt hl ht
  case h_8 ht =>
    exact draws_loopExit ht rfl rfl (fun v hLoop _ _ hEnds => .breakLoop v hLoop hEnds)
      fun _ => ⟨rfl, rfl⟩
  case h_9 ht =>
    exact draws_loopExit ht rfl rfl (fun v hLoop _ _ hEnds => .continueLoop v hLoop hEnds)
      fun _ => ⟨rfl, rfl⟩
  case h_10 ht => exact draws_returnStmt hl ht
  case h_11 ht => exact draws_tryStmt hl ht
  case h_12 ht => exact draws_throwStmt hl ht
  case h_13 => exact draws_map (draws_block hl)

/-! ## Levels and programs -/

omit hl in
theorem level_draws (room : Nat) : DrawsLevel (level room) := by
  induction room with
  | zero =>
    have hNested : ∀ {α : Type} {R : List Token → Option Token → α → Prop} (f : Option Token),
        Draws [] f tooNested R := fun f => draws_peek_bind fun _ _ => draws_failAt _ _
    exact ⟨fun _ f => hNested f, fun _ f => hNested f, fun _ f => hNested f⟩
  | succ room ih =>
    exact ⟨fun _ f => draws_mono (drawsAt_assignment ih f) fun _ _ _ h => h.2,
      fun _ f => draws_mono (drawsAt_unary ih f) fun _ _ _ h => h.2,
      fun _ f => draws_declaration ih f⟩

omit hl in
/-- The statements of a program are drawn from all that is ahead. -/
theorem exists_row_of_program {s s' : Input} {p : Program} (h : program s = .ok (p, s')) :
    ∃ row start finish, s.Gives row s' ∧ InRow row (Node.program p).children ∧
      p.span = some ⟨start.pos, finish.pos⟩ ∧ peek s = .ok (start, s) ∧
      peek s' = .ok (finish, s') := by
  obtain ⟨start, s₁, hStart, hRest⟩ := exists_of_bind h
  obtain rfl := peek_stays hStart
  obtain ⟨body, s₂, hBody, hFinish⟩ := exists_of_bind hRest
  obtain ⟨finish, s₃, hPeek, hDone⟩ := exists_of_bind hFinish
  obtain rfl := peek_stays hPeek
  cases hDone
  have hStatements : Draws [] s₁.rest.head? (chain
      (do if ← check .endOfInput then pure none else pure (some ()))
      (fun body _ => do pure ((← (level maxNesting).declaration .top) :: body)) ([] : List Stmt))
      fun row _ body => InRow row (body.reverse.map .stmt) := by
    refine draws_chain (fun row f body hRow => ?_) .done
    refine draws_check_bind fun b _ => draws_ite (fun _ => draws_pure ⟨fun _ => hRow, nofun⟩)
      fun _ => draws_pure ⟨nofun, fun _ _ => ?_⟩
    refine draws_fresh_bind ((level_draws maxNesting).declaration .top f) fun a own n _ ha =>
      draws_pure ?_
    simpa using hRow.append ha
  obtain ⟨row, hGives, hRow⟩ := hStatements _ body s' (Input.took_nil _) rfl hBody
  exact ⟨row, start, finish, hGives, hRow, rfl, hStart, hPeek⟩

end Grammar

/-- A program is drawn from the tokens of its stream up to the end of input. -/
theorem Program.exists_row_of_stream {stream : TokenStream} {p : Program}
    (h : ofStream? stream = .ok p) : ∃ row rest start finish, stream.tokens = row ++ rest ∧
      (∀ t ∈ row, t.kind ≠ .endOfInput) ∧ (∀ t ∈ rest.head?, t.kind = .endOfInput) ∧
      Node.InRow row (Node.program p).children ∧ p.span = some ⟨start.pos, finish.pos⟩ ∧
      (∀ t ∈ stream.tokens.head?, start = t) ∧ ∀ t ∈ rest.head?, finish = t := by
  have hPeek : ∀ {s : Input} {t : Token}, Parser.peek s = .ok (t, s) →
      ∀ u ∈ s.rest.head?, t = u := by
    intro s t hPeek u hu
    obtain ⟨rest, hRest⟩ := List.head?_eq_some_iff.mp hu
    rw [Parser.peek, hRest] at hPeek
    cases hPeek
    rfl
  obtain ⟨s, hRun⟩ := exists_of_stream h
  obtain ⟨row, start, finish, hGives, hRow, hSpan, hStart, hFinish⟩ :=
    Grammar.exists_row_of_program hRun
  obtain ⟨-, -, -, hNone, -, -⟩ := Grammar.exists_end_of_program
    (s := Input.ofStream stream) (Token.length_terminals_le stream.tokens) hRun
  refine ⟨row, s.rest, start, finish, hGives.rest, hGives.words, fun t ht => ?_, hRow, hSpan,
    hPeek hStart, hPeek hFinish⟩
  refine Decidable.byContradiction fun hKind => ?_
  obtain ⟨rest, hRest⟩ := List.head?_eq_some_iff.mp ht
  rw [Input.terminals, hRest, Token.terminals_cons hKind] at hNone
  cases hNone

end Tern
