import Tern.Proofs.Grammar.Trailing

/-!
# The grammar on a row that stops

Each parser of the grammar, run on a row that stops, trails the same parser on a row that goes on
there. Only assignments need more than their parts: the run on the shorter row may end inside the
value, and whether the target can be assigned to is known only after that.

* `Expr.isTarget`: the expressions that can be assigned to;
* `Parser.Shadows`: a parser of expressions or statements that trails another;
* `Grammar.trails_assignment`: assignments;
* `Grammar.trails_level`, `Grammar.trails_programOf`: the levels and the programs.
-/

namespace Tern

/-- An expression that can be assigned to. -/
def Expr.isTarget : Expr → Bool
  | name _ | member .. | index .. => true
  | _ => false

/-- Of two expressions both or none can be assigned to. -/
def SameTarget (e e' : Expr) : Prop := e'.isTarget = e.isTarget

theorem Grammar.isSome_assignTo? (target value : Expr) (span : Option Span) :
    (assignTo? target value span).isSome = target.isTarget := by
  cases target <;> rfl

namespace Parser

variable {α α' β : Type}

/-- The parsers want something, and the run of the first one trails that of the second. -/
structure Shadows (p : Parser α) (q : Parser α') (R : α → α' → Prop) : Prop where
  trails : Trails Abreast p q R fun _ => True
  starves : Starves p
  left : ∀ f, Takes f p fun xs _ _ => xs ≠ []
  right : ∀ f, Takes f q fun xs _ _ => xs ≠ []

variable {p : Parser α} {q : Parser α'} {R : α → α' → Prop}

theorem Shadows.mono {R' : α → α' → Prop} (h : Shadows p q R) (hImp : ∀ a b, R a b → R' a b) :
    Shadows p q R' :=
  { h with trails := trails_mono h.trails hImp fun _ => id }

theorem Shadows.untilClose (h : Shadows p q fun _ _ => True) :
    Trails Abreast (untilClose p) (untilClose q) (fun _ _ => True) fun _ => True :=
  trails_untilClose h.trails h.left (fun _ _ _ => id) h.right fun _ _ _ => id

theorem Shadows.commaSeparated {close : TokenKind} (hEnd : close ≠ .endOfInput)
    (h : Shadows p q R) :
    Trails Abreast (commaSeparated close fun _ => p) (commaSeparated close fun _ => q)
      (List.Forall₂ R) fun _ => True :=
  trails_commaSeparated hEnd (fun _ _ _ => h.trails) h.starves.rests
    (fun _ f => takes_mono (h.left f) fun _ _ _ _ => trivial)
    fun _ f => takes_mono (h.right f) fun _ _ _ _ => trivial

end Parser

namespace Grammar

open Tern.Parser

/-- The parsers of a level trail those of another one. -/
structure TrailsLevel (l l' : Level) : Prop where
  expression : ∀ ctx, Shadows (l.expression ctx) (l'.expression ctx) SameTarget
  operand : ∀ ctx, Shadows (l.operand ctx) (l'.operand ctx) fun _ _ => True
  declaration : ∀ ctx, Shadows (l.declaration ctx) (l'.declaration ctx) fun _ _ => True
  left : ∃ g, SoundLevel l g
  right : ∃ g, SoundLevel l' g

variable {l l' : Level} {ctx : Context} {t t' : Token} {what keyword : String}

/-! ## Expressions -/

theorem trails_expressions (hl : TrailsLevel l l') {close : TokenKind}
    (hEnd : close ≠ .endOfInput) :
    Trails Abreast (commaSeparated close fun _ => l.expression ctx)
      (commaSeparated close fun _ => l'.expression ctx) (fun _ _ => True) fun _ => True :=
  trails_mono ((hl.expression ctx).commaSeparated hEnd) (fun _ _ _ => trivial) fun _ => id

/-- A token that is an expression by itself. -/
theorem trails_leaf {e e' : Option Span → Expr} (h : ∀ v v', SameTarget (e v) (e' v')) :
    Trails (Sees t t') (do let _ ← advance; pure (e (← spanFrom t)))
      (do let _ ← advance; pure (e' (← spanFrom t'))) SameTarget fun _ => False :=
  trails_advance_bind fun _ => trails_spanFrom_bind fun v v' => trails_pure (h v v') fun _ _ h => h

theorem trails_primary (hl : TrailsLevel l l') :
    Trails Abreast (primary l ctx) (primary l' ctx) SameTarget fun _ => False := by
  refine trails_peek_bind (fun t ht => ?_) fun t t' hLike hKind => ?_
  · rw [ht]
    exact rests_failAt _ ht
  rw [hLike.1]
  split
  · exact trails_leaf fun _ _ => rfl
  · exact trails_leaf fun _ _ => rfl
  · exact trails_leaf fun _ _ => rfl
  · exact trails_leaf fun _ _ => rfl
  · exact trails_leaf fun _ _ => rfl
  · refine trails_advance_bind fun _ => trails_ite (fun _ => trails_failAt) fun _ => ?_
    exact trails_spanFrom_bind fun _ _ => trails_pure rfl fun _ _ h => h
  · refine trails_advance_bind fun _ => ?_
    unfold superExpr
    split
    · exact trails_failAt
    · exact trails_failAt
    · refine trails_expect_bind (by decide) fun _ _ _ _ => ?_
      refine trails_firm_bind trails_ident fun m m' _ => ?_
      exact trails_spanFrom_bind fun _ _ => trails_pure rfl fun _ _ h => h
  · exact trails_leaf fun _ _ => rfl
  · refine trails_advance_bind fun _ => ?_
    refine trails_bind (hl.expression ctx).trails (fun e e' he => ?_) fun _ _ => ?_
    · exact trails_expect_bind (by decide) fun _ _ _ _ => trails_pure he fun _ _ h => h
    · exact (starves_expect (by decide)).bind
  · refine trails_advance_bind fun _ => ?_
    refine trails_bind (trails_expressions hl (by decide)) (fun _ _ _ => ?_) fun _ _ => ?_
    · refine trails_expect_bind (by decide) fun _ _ _ _ => ?_
      exact trails_spanFrom_bind fun _ _ => trails_pure rfl fun _ _ h => h
    · exact (starves_expect (by decide)).bind
  · exact trails_failAt

theorem trails_suffixed (hl : TrailsLevel l l') (e e' : Expr) (suffix : Suffix) :
    Trails Abreast (suffixed l ctx t e suffix) (suffixed l' ctx t' e' suffix) SameTarget
      fun _ => True := by
  cases suffix with
  | call =>
    refine trails_bind (trails_expressions hl (by decide)) (fun _ _ _ => ?_) fun _ _ => ?_
    · refine trails_expect_bind (by decide) fun _ _ _ _ => ?_
      exact trails_spanFrom_bind fun _ _ => trails_pure rfl fun _ _ h => h
    · exact (starves_expect (by decide)).bind
  | member =>
    refine trails_firm_bind trails_ident fun m m' _ => ?_
    exact trails_spanFrom_bind fun _ _ => trails_pure rfl fun _ _ h => h
  | index =>
    refine trails_bind (hl.expression ctx).trails (fun _ _ _ => ?_) fun _ _ => ?_
    · refine trails_expect_bind (by decide) fun _ _ _ _ => ?_
      exact trails_spanFrom_bind fun _ _ => trails_pure rfl fun _ _ h => h
    · exact (starves_expect (by decide)).bind

theorem advances_suffixed (h : ∃ g, SoundLevel l g) :
    Advances (acceptAs Suffix.ofKind) (suffixed l ctx t) := by
  obtain ⟨g, hg⟩ := h
  intro f e
  refine takes_mono (takes_acceptAs rfl) fun ys n b hb suffix hSome => ?_
  subst hSome
  refine takes_mono (completes_suffixed hg.completes hb.1.symm).takes fun _ _ _ _ => ?_
  rw [hb.2.1]
  exact List.cons_ne_nil _ _

theorem trails_call (hl : TrailsLevel l l') :
    Trails Abreast (call l ctx) (call l' ctx) SameTarget fun _ => True := by
  refine trails_peek_bind (fun t ht => ?_) fun t t' _ _ => trails_from ?_ fun _ _ h => h.abreast
  · refine Starves.bind (rests_peek_bind fun t ht => ?_)
    rw [ht]
    exact rests_failAt _ ht
  · refine trails_firm_bind (trails_primary hl) fun e e' he => ?_
    exact trails_chain (trails_acceptAs rfl) (rests_acceptAs rfl)
      (fun e e' suffix _ => trails_suffixed hl e e' suffix) (advances_suffixed hl.left)
      (advances_suffixed hl.right) he

theorem takes_some_leftAssoc {β : Type} {op : TokenKind → Option β}
    {join : β → Expr → Expr → Option Span → Expr} {operand : Parser Expr}
    (hEnd : op .endOfInput = none) (h : ∀ f, Takes f operand fun xs _ _ => xs ≠ [])
    (f : Terminal) : Takes f (leftAssoc op join operand) fun xs _ _ => xs ≠ [] := by
  refine takes_peek_bind fun start _ => takes_bind (h f) fun e xs n hxs => ?_
  refine takes_mono (takes_chain (I := fun _ _ _ => True) ?_ trivial) fun _ _ _ _ => by simp [hxs]
  intro _ f e _
  refine takes_mono (takes_acceptAs hEnd) fun ys n b hb => ⟨fun hNone => ?_, fun b' _ => ?_⟩
  · exact ⟨by simp [hb.2.1, hNone], hb.2.2 hNone⟩
  · exact takes_bind (h n) fun r _ _ _ => takes_spanFrom_bind fun _ => takes_pure trivial

theorem shadows_leftAssoc {β : Type} {op : TokenKind → Option β}
    {join : β → Expr → Expr → Option Span → Expr} {operand operand' : Parser Expr}
    (hEnd : op .endOfInput = none) (hJoin : ∀ b l r v, (join b l r v).isTarget = false)
    (h : Shadows operand operand' SameTarget) :
    Shadows (leftAssoc op join operand) (leftAssoc op join operand') SameTarget := by
  have hAdvances : ∀ {o : Parser Expr} {start : Token},
      (∀ f, Takes f o fun xs _ _ => xs ≠ []) → Advances (acceptAs op) (fun left b => do
        let right ← o
        pure (join b left right (← spanFrom start))) := fun ho =>
    advances_acceptAs hEnd fun f _ _ => takes_bind (ho f) fun _ _ _ _ =>
      takes_spanFrom_bind fun _ => takes_pure trivial
  refine ⟨?_, starves_leftAssoc h.starves, takes_some_leftAssoc hEnd h.left,
    takes_some_leftAssoc hEnd h.right⟩
  refine trails_peek_bind (fun _ _ => h.starves.bind) fun t t' _ _ =>
    trails_from ?_ fun _ _ h => h.abreast
  refine trails_bind h.trails (fun e e' he => ?_) fun e _ => rests_chain (rests_acceptAs hEnd) e
  refine trails_chain (trails_acceptAs hEnd) (rests_acceptAs hEnd) (fun a a' b _ => ?_)
    (hAdvances h.left) (hAdvances h.right) he
  refine trails_bind h.trails (fun r r' _ => trails_spanFrom_bind fun v v' => ?_) fun r _ => ?_
  · refine trails_pure ?_ fun _ _ h => h
    rw [SameTarget, hJoin, hJoin]
  · exact rests_spanFrom_bind fun _ => rests_pure trivial

theorem shadows_unary (hl : TrailsLevel l l') :
    Shadows (unary l ctx) (unary l' ctx) SameTarget := by
  refine ⟨?_, starves_unary, fun f => ?_, fun f => ?_⟩
  · refine trails_peek_bind (fun t ht => ?_) fun t t' hLike hKind => ?_
    · rw [ht]
      exact starves_call.rests
    · rw [hLike.1]
      split
      · refine trails_advance_bind fun _ => ?_
        refine trails_bind (hl.operand ctx).trails (fun _ _ _ => ?_) fun _ _ => ?_
        · exact trails_spanFrom_bind fun _ _ => trails_pure rfl fun _ _ h => h
        · exact rests_spanFrom_bind fun _ => rests_pure trivial
      · exact trails_from (trails_call hl) fun _ _ h => h.abreast
  · obtain ⟨g, hg⟩ := hl.left
    exact takes_mono (completes_unary hg.completes f).takes fun _ _ _ h => h.opens.ne_nil
  · obtain ⟨g, hg⟩ := hl.right
    exact takes_mono (completes_unary hg.completes f).takes fun _ _ _ h => h.opens.ne_nil

theorem shadows_logicOr (hl : TrailsLevel l l') :
    Shadows (logicOr l ctx) (logicOr l' ctx) SameTarget := by
  -- disjunctions, conjunctions, equalities, comparisons, sums and products
  refine shadows_leftAssoc rfl (fun _ _ _ _ => rfl) ?_
  refine shadows_leftAssoc rfl (fun _ _ _ _ => rfl) ?_
  refine shadows_leftAssoc rfl (fun _ _ _ _ => rfl) ?_
  refine shadows_leftAssoc rfl (fun _ _ _ _ => rfl) ?_
  refine shadows_leftAssoc rfl (fun _ _ _ _ => rfl) ?_
  exact shadows_leftAssoc rfl (fun _ _ _ _ => rfl) (shadows_unary hl)

/-- What comes after the sign of an assignment: the value, which the target must be able to take. -/
def assigned (inner : Level) (ctx : Context) (start equals : Token) (target : Expr) :
    Parser Expr := do
  let value ← inner.expression ctx
  match assignTo? target value (← spanFrom start) with
  | some e => pure e
  | none => failAt equals .badTarget

theorem assignment_eq : assignment l ctx = (do
    let start ← peek
    let target ← logicOr l ctx
    if ← check .equal then
      let equals ← advance
      assigned l ctx start equals target
    else pure target) := rfl

theorem isTarget_assignTo? {target value e : Expr} {v : Option Span}
    (h : assignTo? target value v = some e) : e.isTarget = false := by
  cases target <;> cases h <;> rfl

theorem fails_assigned {start equals : Token} {target : Expr} (h : target.isTarget = false)
    (u : Input) : ∃ e, assigned l ctx start equals target u = .error e := by
  cases hRun : assigned l ctx start equals target u with
  | error e => exact ⟨e, rfl⟩
  | ok q =>
    obtain ⟨value, u₁, -, hThen⟩ := exists_of_bind hRun
    obtain ⟨v, u₂, -, hEnd⟩ := exists_of_bind hThen
    have hNone : assignTo? target value v = none := by
      rw [← Option.not_isSome_iff_eq_none, isSome_assignTo?, h]
      exact Bool.false_ne_true
    rw [hNone] at hEnd
    cases hEnd

/-- Where the longer run succeeds the target can be assigned to, so the shorter run has nothing
against it either, wherever it ends. -/
theorem trails_assigned (hl : TrailsLevel l l') {start start' equals equals' : Token}
    {target target' : Expr} (h : SameTarget target target') :
    Trails Abreast (assigned l ctx start equals target) (assigned l' ctx start' equals' target')
      SameTarget fun _ => True := by
  cases hTarget : target'.isTarget with
  | true =>
    have hSome : ∀ value v, ∃ e, assignTo? target value v = some e := by
      intro value v
      refine Option.isSome_iff_exists.mp ?_
      rw [isSome_assignTo?, ← h, hTarget]
    refine trails_bind (hl.expression ctx).trails (fun value value' _ => ?_) fun value _ => ?_
    · refine trails_spanFrom_bind fun v v' => ?_
      obtain ⟨e, he⟩ := hSome value v
      rw [he]
      cases he' : assignTo? target' value' v' with
      | some e' =>
        exact trails_pure ((isTarget_assignTo? he').trans (isTarget_assignTo? he).symm)
          fun _ _ h => h
      | none => exact trails_failAt
    · refine rests_spanFrom_bind fun v => ?_
      obtain ⟨e, he⟩ := hSome value v
      rw [he]
      exact rests_pure trivial
  | false => exact trails_of_fails (fails_assigned hTarget)

theorem trails_assignment (hl : TrailsLevel l l') :
    Trails Abreast (assignment l ctx) (assignment l' ctx) SameTarget fun _ => True := by
  rw [assignment_eq, assignment_eq]
  refine trails_peek_bind (fun _ _ => starves_logicOr.bind) fun start start' _ _ =>
    trails_from ?_ fun _ _ h => h.abreast
  have hOver : ∀ target : Expr, Rests (pure target : Parser Expr) fun _ => True := fun _ =>
    rests_pure trivial
  refine trails_bind (shadows_logicOr hl).trails (fun target target' hTarget => ?_) fun target _ =>
    rests_check_bind (by decide) (hOver target)
  refine trails_check_bind (by decide) (hOver target) fun t t' c _ => ?_
  refine trails_ite (fun _ => ?_) fun _ => trails_pure hTarget fun _ _ h => h.abreast
  exact trails_advance_bind fun _ => trails_assigned hl hTarget

/-! ## Statements -/

theorem trails_span {pre : Input → Input → Prop} {α α' : Type} {Q : α → Prop}
    {make : Option Span → α} {make' : Option Span → α'} (hPre : ∀ s u, pre s u → Abreast s u) :
    Trails pre (do pure (make (← spanFrom t))) (do pure (make' (← spanFrom t')))
      (fun _ _ => True) Q :=
  trails_spanFrom_bind fun _ _ => trails_pure trivial hPre

theorem trails_terminated {α α' : Type} (a : α) (a' : α') :
    Trails Abreast (terminated a) (terminated a') (fun _ _ => True) fun _ => True := by
  refine trails_accept_bind (by decide) (rests_atClose_bind (rests_pure trivial))
    (trails_pure trivial fun _ _ h => h) ?_
  refine trails_atClose_bind (rests_pure trivial) fun t t' c => ?_
  refine trails_ite (fun _ => trails_pure trivial fun _ _ h => h.abreast) fun _ => ?_
  exact trails_sees_peek_bind fun _ _ => trails_failAt

theorem trails_block (hl : TrailsLevel l l') :
    Trails Abreast (block l ctx what) (block l' ctx what) (fun _ _ => True) fun _ => False := by
  refine trails_expect_bind (by decide) fun _ _ _ _ => ?_
  refine trails_bind (hl.declaration ctx).untilClose (fun _ _ _ => ?_) fun _ _ => ?_
  · exact trails_expect_bind (by decide) fun _ _ _ _ => trails_span fun _ _ h => h
  · exact (starves_expect (by decide)).bind

theorem trails_parenthesized (hl : TrailsLevel l l') :
    Trails Abreast (parenthesized l ctx keyword) (parenthesized l' ctx keyword)
      (fun _ _ => True) fun _ => False := by
  refine trails_expect_bind (by decide) fun _ _ _ _ => ?_
  refine trails_bind (hl.expression ctx).trails (fun _ _ _ => ?_) fun _ _ => ?_
  · exact trails_expect_bind (by decide) fun _ _ _ _ => trails_pure trivial fun _ _ h => h
  · exact (starves_expect (by decide)).bind

/-! ### Declarations -/

theorem fails_previous {α : Type} (cause : ParseCause) (u : Input) :
    ∃ e, (do failAt (← previous) cause : Parser α) u = .error e := by
  cases hRun : previous u with
  | ok q => exact ⟨_, bind_ok hRun⟩
  | error e => exact ⟨e, bind_error hRun⟩

theorem trails_param {before before' : List Ident} (h : List.Forall₂ SameName before before') :
    Trails Abreast (param before) (param before') SameName fun _ => True := by
  refine trails_firm_bind trails_ident fun id id' hId => ?_
  have hSame : before'.any (fun other => other.name = id'.name) =
      before.any fun other => other.name = id.name := by
    induction h with
    | nil => rfl
    | cons hHead _ ih => rw [List.any_cons, List.any_cons, ih, hHead, hId]
  rw [hSame]
  refine trails_ite (fun _ => ?_) fun _ => trails_pure hId fun _ _ h => h
  exact trails_of_fails (fails_previous _)

theorem takes_some_param (before : List Ident) (f : Terminal) :
    Takes f (param before) fun _ _ _ => True := by
  refine takes_ident_bind fun id n _ => takes_ite (fun _ => ?_) fun _ => takes_pure trivial
  exact takes_previous_bind fun _ _ => ⟨_, rfl⟩

theorem trails_funcDef (hl : TrailsLevel l l') :
    Trails (Sees t t') (funcDef l ctx what) (funcDef l' ctx what) (fun _ _ => True)
      fun _ => False := by
  refine trails_advance_bind fun _ => trails_firm_bind trails_ident fun _ _ _ => ?_
  refine trails_expect_bind (by decide) fun _ _ _ _ => ?_
  refine trails_bind (trails_commaSeparated (by decide) (fun _ _ => trails_param)
    starves_ident.bind takes_some_param takes_some_param) (fun _ _ _ => ?_) fun _ _ => ?_
  · refine trails_expect_bind (by decide) fun _ _ _ _ => ?_
    exact trails_firm_bind (trails_block hl) fun _ _ _ => trails_span fun _ _ h => h
  · exact (starves_expect (by decide)).bind

theorem trails_superclass {id id' : Ident} (hId : SameName id id') :
    Trails Abreast (superclass id) (superclass id') (fun o o' => o'.isSome = o.isSome)
      fun _ => True := by
  refine trails_accept_bind (by decide) (rests_pure trivial) ?_ (trails_pure rfl fun _ _ h => h)
  refine trails_firm_bind trails_ident fun parent parent' hParent => ?_
  rw [show parent'.name = parent.name from hParent, show id'.name = id.name from hId]
  refine trails_ite (fun _ => ?_) fun _ => trails_pure rfl fun _ _ h => h
  exact trails_of_fails (fails_previous _)

theorem shadows_method (hl : TrailsLevel l l') :
    Shadows (method l ctx) (method l' ctx) fun _ _ => True := by
  have hSome : ∀ {g : Forms} {xs : List Terminal} {fn : FuncDef},
      Form.Function g ctx xs fn → xs ≠ [] := by
    rintro g xs fn ⟨⟩
    exact List.cons_ne_nil _ _
  refine ⟨?_, starves_method, fun f => ?_, fun f => ?_⟩
  · refine trails_peek_bind (fun t ht => ?_) fun t t' hLike _ => ?_
    · rw [if_neg (by rw [ht]; decide)]
      exact rests_failAt _ ht
    · rw [hLike.1]
      refine trails_ite (fun _ => ?_) fun _ => trails_failAt
      exact trails_mono (trails_funcDef hl) (fun _ _ => id) fun _ => False.elim
  · obtain ⟨g, hg⟩ := hl.left
    exact takes_mono (completes_method hg.completes f False.elim).takes fun _ _ _ h => hSome h
  · obtain ⟨g, hg⟩ := hl.right
    exact takes_mono (completes_method hg.completes f False.elim).takes fun _ _ _ h => hSome h

theorem trails_classDef (hl : TrailsLevel l l') :
    Trails (Sees t t') (classDef l ctx) (classDef l' ctx) (fun _ _ => True) fun _ => False := by
  refine trails_advance_bind fun _ => trails_firm_bind trails_ident fun id id' hId => ?_
  refine trails_bind (trails_superclass hId) (fun parent parent' hParent => ?_) fun _ _ => ?_
  · refine trails_expect_bind (by decide) fun _ _ _ _ => ?_
    rw [hParent]
    refine trails_bind (shadows_method hl).untilClose (fun _ _ _ => ?_) fun _ _ => ?_
    · exact trails_expect_bind (by decide) fun _ _ _ _ => trails_span fun _ _ h => h
    · exact (starves_expect (by decide)).bind
  · exact (starves_expect (by decide)).bind

theorem trails_some (hl : TrailsLevel l l') :
    Trails Abreast (some <$> l.expression ctx) (some <$> l'.expression ctx) (fun _ _ => True)
      fun _ => True :=
  trails_map (hl.expression ctx).trails (fun _ _ _ => trivial) fun _ => id

theorem trails_varDecl (hl : TrailsLevel l l') :
    Trails (Sees t t') (varDecl l ctx) (varDecl l' ctx) (fun _ _ => True) fun _ => True := by
  refine trails_advance_bind fun _ => trails_firm_bind trails_ident fun id id' _ => ?_
  have hRests : ∀ v : Option Expr, Rests (do pure (Simple.var id v (← spanFrom t)))
      fun _ => True := fun _ => rests_spanFrom_bind fun _ => rests_pure trivial
  refine trails_accept_bind (by decide) (rests_bind (Q := fun _ => True)
    (rests_pure trivial) fun v _ => hRests v) ?_ ?_
  · exact trails_bind (trails_some hl) (fun _ _ _ => trails_span fun _ _ h => h) fun v _ => hRests v
  · refine trails_bind (R := fun _ _ => True) (Q := fun _ => True)
      (trails_pure trivial fun _ _ h => h) (fun _ _ _ => ?_) fun v _ => hRests v
    exact trails_span fun _ _ h => h

theorem trails_constDecl (hl : TrailsLevel l l') :
    Trails (Sees t t') (constDecl l ctx) (constDecl l' ctx) (fun _ _ => True) fun _ => True := by
  refine trails_advance_bind fun _ => trails_firm_bind trails_ident fun _ _ _ => ?_
  refine trails_expect_bind (by decide) fun _ _ _ _ => ?_
  refine trails_bind (hl.expression ctx).trails (fun _ _ _ => ?_) fun _ _ => ?_
  · exact trails_span fun _ _ h => h
  · exact rests_spanFrom_bind fun _ => rests_pure trivial

theorem trails_exprStmt (hl : TrailsLevel l l') :
    Trails Abreast (exprStmt l ctx) (exprStmt l' ctx) (fun _ _ => True) fun _ => True := by
  refine trails_peek_bind (fun _ _ => (hl.expression ctx).starves.bind) fun t t' _ _ =>
    trails_from ?_ fun _ _ h => h.abreast
  refine trails_bind (hl.expression ctx).trails (fun _ _ _ => ?_) fun _ _ => ?_
  · exact trails_span fun _ _ h => h
  · exact rests_spanFrom_bind fun _ => rests_pure trivial

/-! ### Control flow -/

theorem trails_elifClause (hl : TrailsLevel l l') :
    Trails Abreast (elifClause l ctx) (elifClause l' ctx) (fun _ _ => True) fun _ => False := by
  refine trails_of_sees (rests_advance_bind fun _ => starves_parenthesized.bind) fun t t' => ?_
  refine trails_advance_bind fun _ => trails_firm_bind (trails_parenthesized hl) fun _ _ _ => ?_
  exact trails_firm_bind (trails_block hl) fun _ _ _ => trails_span fun _ _ h => h

theorem advances_elifClause (h : ∃ g, SoundLevel l g) :
    Advances (do if ← check .kwElif then pure (some ()) else pure none)
      (fun clauses _ => do pure ((← elifClause l ctx) :: clauses)) := by
  obtain ⟨g, hg⟩ := h
  refine fun f clauses => takes_check_bind fun c hc => takes_ite (fun hTrue => ?_) fun _ =>
    takes_pure nofun
  obtain rfl := Terminal.eq_mark (by decide) (hc.mp hTrue)
  refine takes_pure fun _ _ => takes_bind (R := fun xs _ _ => xs ≠ []) ?_ fun _ xs _ hxs =>
    takes_pure (by simpa using hxs)
  refine takes_advance_bind (by decide) fun _ n _ => ?_
  refine takes_bind (completes_parenthesized hg.completes).takes fun _ _ n _ => ?_
  refine takes_bind (completes_block hg.completes n).takes fun _ _ _ _ => ?_
  exact takes_spanFrom_bind fun _ => takes_pure (List.cons_ne_nil _ _)

theorem trails_elifClauses (hl : TrailsLevel l l') :
    Trails Abreast (elifClauses l ctx) (elifClauses l' ctx) (fun _ _ => True) fun _ => True := by
  refine trails_bind (R := fun _ _ => True) (Q := fun _ => True) (trails_chain ?_ ?_ ?_
    (advances_elifClause hl.left) (advances_elifClause hl.right) trivial) (fun _ _ _ =>
    trails_pure trivial fun _ _ h => h) fun _ _ => rests_pure trivial
  · refine trails_check_bind (by decide) (rests_pure rfl) fun t t' c _ => ?_
    exact trails_ite (fun _ => trails_pure rfl fun _ _ h => h.abreast) fun _ =>
      trails_pure rfl fun _ _ h => h.abreast
  · exact rests_check_bind (by decide) (rests_pure rfl)
  · intro clauses clauses' _ _
    exact trails_firm_bind (trails_elifClause hl) fun _ _ _ => trails_pure trivial fun _ _ h => h

theorem trails_ifStmt (hl : TrailsLevel l l') :
    Trails (Sees t t') (ifStmt l ctx) (ifStmt l' ctx) (fun _ _ => True) fun _ => True := by
  refine trails_advance_bind fun _ => trails_firm_bind (trails_parenthesized hl) fun c _ _ => ?_
  refine trails_firm_bind (trails_block hl) fun body _ _ => ?_
  have hRests : ∀ elifs (o : Option Block), Rests
      (do pure (Stmt.ifElse c body elifs o (← spanFrom t))) fun _ => True := fun _ _ =>
    rests_spanFrom_bind fun _ => rests_pure trivial
  have hNone : ∀ elifs, Rests (do
      let otherwise ←
        if ← accept .kwElse then some <$> block l ctx "else body" else pure none
      pure (Stmt.ifElse c body elifs otherwise (← spanFrom t))) fun _ => True := fun elifs =>
    rests_accept_bind (by decide) (rests_bind (Q := fun _ => True) (rests_pure trivial) fun o _ =>
      hRests elifs o)
  refine trails_bind (trails_elifClauses hl) (fun elifs _ _ => ?_) fun elifs _ => hNone elifs
  refine trails_accept_bind (by decide) (rests_bind (Q := fun _ => True) (rests_pure trivial)
    fun o _ => hRests elifs o) ?_ ?_
  · refine trails_firm_bind (R := fun _ _ => True)
      (trails_map (trails_block hl) (fun _ _ _ => trivial) fun _ => id) fun _ _ _ => ?_
    exact trails_span fun _ _ h => h
  · refine trails_bind (R := fun _ _ => True) (Q := fun _ => True)
      (trails_pure trivial fun _ _ h => h) (fun _ _ _ => ?_) fun o _ => hRests elifs o
    exact trails_span fun _ _ h => h

theorem trails_whileStmt (hl : TrailsLevel l l') :
    Trails (Sees t t') (whileStmt l ctx) (whileStmt l' ctx) (fun _ _ => True) fun _ => False := by
  refine trails_advance_bind fun _ => trails_firm_bind (trails_parenthesized hl) fun _ _ _ => ?_
  exact trails_firm_bind (trails_block hl) fun _ _ _ => trails_span fun _ _ h => h

theorem trails_forStart (hl : TrailsLevel l l') :
    Trails Abreast (forStart l ctx) (forStart l' ctx) (fun _ _ => True) fun _ => True := by
  refine trails_peek_bind (fun t ht => ?_) fun t t' hLike _ => ?_
  · rw [ht]
    exact rests_map (starves_exprStmt (hl.expression ctx).starves).rests
  rw [hLike.1]
  split
  · exact trails_map (trails_varDecl hl) (fun _ _ _ => trivial) fun _ => id
  · exact trails_map (trails_constDecl hl) (fun _ _ _ => trivial) fun _ => id
  · exact trails_pure trivial fun _ _ h => h.abreast
  · exact trails_from (trails_map (trails_exprStmt hl) (fun _ _ _ => trivial) fun _ => id)
      fun _ _ h => h.abreast

theorem trails_optionalBefore (hl : TrailsLevel l l') {close : TokenKind}
    (hEnd : close ≠ .endOfInput) :
    Trails Abreast (optionalBefore l ctx close) (optionalBefore l' ctx close) (fun _ _ => True)
      fun _ => True := by
  refine trails_check_bind hEnd (rests_map (hl.expression ctx).starves.rests) fun t t' c _ => ?_
  refine trails_ite (fun _ => trails_pure trivial fun _ _ h => h.abreast) fun _ => ?_
  exact trails_from (trails_some hl) fun _ _ h => h.abreast

theorem trails_forStmt (hl : TrailsLevel l l') :
    Trails (Sees t t') (forStmt l ctx) (forStmt l' ctx) (fun _ _ => True) fun _ => False := by
  refine trails_advance_bind fun _ => trails_expect_bind (by decide) fun _ _ _ _ => ?_
  refine trails_bind (trails_forStart hl) (fun _ _ _ => ?_) fun _ _ =>
    (starves_expect (by decide)).bind
  refine trails_expect_bind (by decide) fun _ _ _ _ => ?_
  refine trails_bind (trails_optionalBefore hl (by decide)) (fun _ _ _ => ?_) fun _ _ =>
    (starves_expect (by decide)).bind
  refine trails_expect_bind (by decide) fun _ _ _ _ => ?_
  refine trails_bind (trails_optionalBefore hl (by decide)) (fun _ _ _ => ?_) fun _ _ =>
    (starves_expect (by decide)).bind
  refine trails_expect_bind (by decide) fun _ _ _ _ => ?_
  exact trails_firm_bind (trails_block hl) fun _ _ _ => trails_span fun _ _ h => h

/-- A word that stands alone, which needs something around it. -/
theorem trails_jump {needed : Bool} {cause : ParseCause} {make : Option Span → Stmt} :
    Trails (Sees t t')
      (do
        let keyword ← advance
        if needed then terminated (make (← spanFrom keyword)) else failAt keyword cause)
      (do
        let keyword ← advance
        if needed then terminated (make (← spanFrom keyword)) else failAt keyword cause)
      (fun _ _ => True) fun _ => True := by
  refine trails_advance_bind fun _ => trails_ite (fun _ => ?_) fun _ => trails_failAt
  exact trails_spanFrom_bind fun _ _ => trails_terminated _ _

theorem trails_returnValue (hl : TrailsLevel l l') :
    Trails Abreast (returnValue l ctx) (returnValue l' ctx) (fun _ _ => True) fun _ => True := by
  refine trails_check_bind (by decide) (rests_atClose_bind (rests_pure trivial)) fun t t' c _ =>
    trails_from ?_ fun _ _ h => h.abreast
  refine trails_ite (fun _ => trails_pure trivial fun _ _ h => h) fun _ => ?_
  refine trails_atClose_bind (rests_pure trivial) fun t t' c =>
    trails_from ?_ fun _ _ h => h.abreast
  exact trails_ite (fun _ => trails_pure trivial fun _ _ h => h) fun _ => trails_some hl

theorem trails_returnStmt (hl : TrailsLevel l l') :
    Trails (Sees t t') (returnStmt l ctx) (returnStmt l' ctx) (fun _ _ => True) fun _ => True := by
  refine trails_advance_bind fun _ => trails_ite (fun _ => ?_) fun _ => trails_failAt
  refine trails_bind (trails_returnValue hl) (fun _ _ _ => ?_) fun _ _ =>
    rests_spanFrom_bind fun _ => rests_terminated _
  exact trails_spanFrom_bind fun _ _ => trails_terminated _ _

theorem trails_tryStmt (hl : TrailsLevel l l') :
    Trails (Sees t t') (tryStmt l ctx) (tryStmt l' ctx) (fun _ _ => True) fun _ => False := by
  refine trails_advance_bind fun _ => trails_firm_bind (trails_block hl) fun _ _ _ => ?_
  refine trails_expect_bind (by decide) fun _ _ _ _ => ?_
  refine trails_expect_bind (by decide) fun _ _ _ _ => ?_
  refine trails_firm_bind trails_ident fun _ _ _ => ?_
  refine trails_expect_bind (by decide) fun _ _ _ _ => ?_
  exact trails_firm_bind (trails_block hl) fun _ _ _ => trails_span fun _ _ h => h

theorem trails_throwStmt (hl : TrailsLevel l l') :
    Trails (Sees t t') (throwStmt l ctx) (throwStmt l' ctx) (fun _ _ => True) fun _ => True := by
  refine trails_advance_bind fun _ => trails_bind (hl.expression ctx).trails (fun _ _ _ => ?_)
    fun _ _ => rests_spanFrom_bind fun _ => rests_terminated _
  exact trails_spanFrom_bind fun _ _ => trails_terminated _ _

/-! ## Declarations and levels -/

theorem trails_simple {pre : Input → Input → Prop} {p q : Parser Simple}
    (h : Trails pre p q (fun _ _ => True) fun _ => True) :
    Trails pre (p >>= fun s => terminated (Stmt.simple s))
      (q >>= fun s => terminated (Stmt.simple s)) (fun _ _ => True) fun _ => True :=
  trails_bind h (fun _ _ _ => trails_terminated _ _) fun _ _ => rests_terminated _

/-- A statement that cannot end before its row does. -/
theorem trails_whole {pre : Input → Input → Prop} {α α' : Type} {p : Parser α} {q : Parser α'}
    {k : α → Stmt} {k' : α' → Stmt} (h : Trails pre p q (fun _ _ => True) fun _ => False) :
    Trails pre (k <$> p) (k' <$> q) (fun _ _ => True) fun _ => True :=
  trails_map h (fun _ _ _ => trivial) fun _ => False.elim

theorem trails_firm {pre : Input → Input → Prop} {α α' : Type} {p : Parser α} {q : Parser α'}
    (h : Trails pre p q (fun _ _ => True) fun _ => False) :
    Trails pre p q (fun _ _ => True) fun _ => True :=
  trails_mono h (fun _ _ => id) fun _ => False.elim

theorem trails_declaration (hl : TrailsLevel l l') :
    Trails Abreast (declaration l ctx) (declaration l' ctx) (fun _ _ => True) fun _ => True := by
  refine trails_peek_bind (fun t ht => ?_) fun t t' hLike _ => ?_
  · rw [ht]
    exact (starves_exprStmt (hl.expression ctx).starves).bind
  rw [hLike.1]
  split
  · exact trails_whole (trails_classDef hl)
  · exact trails_whole (trails_funcDef hl)
  · exact trails_simple (trails_varDecl hl)
  · exact trails_simple (trails_constDecl hl)
  · exact trails_ifStmt hl
  · exact trails_firm (trails_whileStmt hl)
  · exact trails_firm (trails_forStmt hl)
  · exact trails_jump
  · exact trails_jump
  · exact trails_returnStmt hl
  · exact trails_firm (trails_tryStmt hl)
  · exact trails_throwStmt hl
  · exact trails_from (trails_whole (trails_block hl)) fun _ _ h => h.abreast
  · exact trails_from (trails_simple (trails_exprStmt hl)) fun _ _ h => h.abreast

section

variable {room : Nat}

theorem SoundLevel.some_expression (h : SoundLevel l (forms room)) (ctx : Context) (f : Terminal) :
    Takes f (l.expression ctx) fun xs _ _ => xs ≠ [] :=
  takes_mono (h.expression ctx f) fun xs _ e he => (forms_expression_opens xs e he).ne_nil

theorem SoundLevel.some_declaration (h : SoundLevel l (forms room)) (ctx : Context)
    (f : Terminal) : Takes f (l.declaration ctx) fun xs _ _ => xs ≠ [] :=
  takes_mono (h.declaration ctx f) fun _ _ _ hd => (forms_declaration_opens hd).ne_nil

end

/-- With no room left nothing is read. -/
theorem shadows_tooNested {α : Type} {R : α → α → Prop} : Shadows tooNested tooNested R := by
  have hTakes : ∀ f, Takes f (tooNested : Parser α) fun xs _ _ => xs ≠ [] := fun f =>
    takes_peek_bind fun _ _ => takes_failAt _ _
  refine ⟨trails_of_fails fun u => ?_, starves_tooNested, hTakes, hTakes⟩
  cases hRun : peek u with
  | ok q => exact ⟨_, bind_ok hRun⟩
  | error e => exact ⟨e, bind_error hRun⟩

theorem trails_level (room : Nat) : TrailsLevel (level room) (level room) := by
  have hSound : ∀ room, SoundLevel (level room) (forms room) := level_sound
  induction room with
  | zero =>
    exact ⟨fun _ => shadows_tooNested, fun _ => shadows_tooNested, fun _ => shadows_tooNested,
      ⟨_, hSound 0⟩, ⟨_, hSound 0⟩⟩
  | succ room ih =>
    have hHere := hSound (room + 1)
    exact ⟨fun ctx => ⟨trails_assignment ih, starves_assignment, hHere.some_expression ctx,
        hHere.some_expression ctx⟩,
      fun _ => (shadows_unary ih).mono fun _ _ _ => trivial,
      fun ctx => ⟨trails_declaration ih, starves_declaration (ih.expression ctx).starves,
        hHere.some_declaration ctx, hHere.some_declaration ctx⟩,
      ⟨_, hHere⟩, ⟨_, hHere⟩⟩

/-- Declarations of a level up to the end of input. -/
def programOf (l : Level) : Parser Program := do
  let start ← peek
  let more : Parser (Option Unit) := do
    if ← check .endOfInput then pure none else pure (some ())
  let body ← chain more (fun body _ => do pure ((← l.declaration .top) :: body)) []
  let finish ← peek
  pure ⟨body.reverse, some ⟨start.pos, finish.pos⟩⟩

theorem program_eq_programOf : program = programOf (level maxNesting) := rfl

theorem trails_programOf (hl : TrailsLevel l l') :
    Trails Abreast (programOf l) (programOf l') (fun _ _ => True) fun _ => True := by
  have hAdvances : ∀ {l : Level}, (∀ f, Takes f (l.declaration .top) fun xs _ _ => xs ≠ []) →
      Advances (do if ← check .endOfInput then pure none else pure (some ()))
        (fun body _ => do pure ((← l.declaration .top) :: body)) := by
    intro l hSome f body
    refine takes_check_bind fun c _ => takes_ite (fun _ => takes_pure nofun) fun _ => ?_
    refine takes_pure fun _ _ => takes_bind (hSome f) fun _ xs _ hxs => takes_pure ?_
    simpa using hxs
  have hEnd : Rests (do if ← check .endOfInput then pure none else pure (some ())) (· = none) := by
    unfold check
    rw [bind_assoc]
    refine rests_peek_bind fun t ht => ?_
    rw [pure_bind, decide_eq_true ht]
    exact rests_pure rfl
  have hFinish : ∀ (start : Token) (body : List Stmt), Rests (do
      let finish ← peek
      pure (Program.mk body.reverse (some ⟨start.pos, finish.pos⟩))) fun _ => True := fun _ _ =>
    rests_peek_bind fun _ _ => rests_pure trivial
  refine trails_peek_bind (fun start _ => ?_) fun start start' _ _ =>
    trails_from ?_ fun _ _ h => h.abreast
  · exact rests_bind (rests_chain hEnd []) fun body _ => hFinish start body
  refine trails_bind (R := fun _ _ => True) (Q := fun _ => True) (trails_chain ?_ hEnd ?_
    (hAdvances (hl.declaration .top).left) (hAdvances (hl.declaration .top).right) trivial)
    (fun body _ _ => ?_) fun body _ => hFinish start body
  · unfold check
    rw [bind_assoc]
    refine trails_peek_bind (fun t ht => ?_) fun t t' hLike hKind => ?_
    · rw [pure_bind, decide_eq_true ht]
      exact rests_pure rfl
    · rw [pure_bind, pure_bind, hLike.1, decide_eq_false hKind]
      exact trails_pure rfl fun _ _ h => h.abreast
  · intro body body' _ _
    exact trails_bind (hl.declaration .top).trails (fun _ _ _ => trails_pure trivial fun _ _ h => h)
      fun _ _ => rests_pure trivial
  · exact trails_peek_bind (fun _ _ => rests_pure trivial) fun _ _ _ _ =>
      trails_pure trivial fun _ _ h => h.abreast

/-- Where a stream that goes on is read, the one that stops is read or in error early. -/
theorem ends_of_trailing (hl : TrailsLevel l l') {s u : TokenStream} {p : Program} {v : Input}
    (hRows : Trailing s.tokens u.tokens)
    (hTrouble : ∀ e ∈ s.failure, (SyntaxError.lex e).isEarly = true)
    (hRun : programOf l' (.ofStream u) = .ok (p, v)) :
    (∃ q s', programOf l (.ofStream s) = .ok (q, s')) ∨
      ∃ e, programOf l (.ofStream s) = .error e ∧ e.isEarly = true := by
  have hStart : Abreast (.ofStream s) (.ofStream u) :=
    ⟨hRows, hTrouble, Nat.le_refl _, Nat.le_refl _⟩
  exact (trails_programOf hl _ _ hStart p v hRun).imp_left fun ⟨q, s', h, _⟩ => ⟨q, s', h⟩

end Grammar

end Tern
