import Tern.Proofs.Grammar.Comparison
import Tern.Proofs.Grammar.Completeness
import Tern.Proofs.Grammar.Soundness

/-!
# The grammar side by side

Every parser of the grammar stays side by side with itself. An expression never takes a token that
closes a statement, so it never leads past the end of an open comparison; a statement may, with its
last token.

* `Comparison.TracksLevel`: the parsers of a level;
* `Comparison.tracks_level`: those of all levels.
-/

namespace Tern

namespace Comparison

open Tern.Parser Grammar Form

variable {D : Comparison} {l : Level} {ctx : Context} {b : Prop} {n : Nat}

/-- The parsers of a level stay side by side, and an expression needs something ahead. -/
structure TracksLevel (D : Comparison) (l : Level) : Prop where
  expression : ∀ ctx n, D.Tracks (D.Facing False (n + 1)) (l.expression ctx) (l.expression ctx)
    D.Same (D.Inside n)
  operand : ∀ ctx n, D.Tracks (D.Facing False (n + 1)) (l.operand ctx) (l.operand ctx)
    D.Same (D.Inside n)
  declaration : ∀ ctx n, D.Tracks (D.Facing False (n + 1)) (l.declaration ctx) (l.declaration ctx)
    D.Same (D.After n)
  stuck : ∀ ctx, D.Stuck (l.expression ctx)

theorem TracksLevel.inside (h : D.TracksLevel l) :
    D.Tracks (D.Facing b n) (l.expression ctx) (l.expression ctx) D.Same (D.Inside n) :=
  tracks_of_succ (measured_facing True) (h.expression ctx)

/-! ## Expressions -/

theorem tracks_leaf {t t' : Token} {e e' : Option Span → Expr} (hLike : D.like t t')
    (hEnd : t.kind ≠ .endOfInput) (hCloses : t.kind.closes = false)
    (h : ∀ v v', D.Same v v' → D.Same (e v) (e' v')) :
    D.Tracks (D.Sees b (n + 1) t) (do let _ ← advance; pure (e (← spanFrom t)))
      (do let _ ← advance; pure (e' (← spanFrom t'))) D.Same (D.Inside n) := by
  refine tracks_advance_bind hEnd (Taken.inside_lt hCloses) fun _ _ => ?_
  refine tracks_spanFrom_bind (fun h => h.lasts trivial) hLike fun v v' hv => ?_
  exact tracks_pure (h v v' hv) fun _ _ h => h

theorem tracks_thisExpr {t t' : Token} (hLike : D.like t t') :
    D.Tracks (D.Inside n) (thisExpr ctx t) (thisExpr ctx t') D.Same (D.Inside n) := by
  refine tracks_ite (fun _ => tracks_failAt hLike) fun _ => ?_
  refine tracks_spanFrom_bind (fun h => h.lasts trivial) hLike fun v v' hv => ?_
  exact tracks_pure (congrArg Expr.this hv) fun _ _ h => h

theorem tracks_superExpr {t t' : Token} (hLike : D.like t t') :
    D.Tracks (D.Inside n) (superExpr ctx t) (superExpr ctx t') D.Same (D.Inside n) := by
  unfold superExpr
  split
  · exact tracks_failAt hLike
  · exact tracks_failAt hLike
  · refine tracks_take_bind (by decide) (Taken.inside · rfl) fun _ _ _ _ => ?_
    refine tracks_from (fun _ _ => .inl) (tracks_ident_bind fun m m' hm => ?_)
    refine tracks_spanFrom_bind (fun h => h.lasts trivial) hLike fun v v' hv => ?_
    exact tracks_pure (congrArg₂ Expr.super hm hv) fun _ _ h => h

theorem tracks_grouped (hl : D.TracksLevel l) :
    D.Tracks (D.Inside n) (grouped l ctx) (grouped l ctx) D.Same (D.Inside n) := by
  refine tracks_bind hl.inside fun e e' he => ?_
  refine tracks_take_bind (by decide) (Taken.inside · rfl) fun _ _ _ _ => ?_
  exact tracks_pure he fun _ _ h => h

theorem tracks_expressions (hl : D.TracksLevel l) (close : TokenKind) :
    D.Tracks (D.Inside n) (commaSeparated close fun _ => l.expression ctx)
      (commaSeparated close fun _ => l.expression ctx) D.Same (D.Inside n) :=
  tracks_commaSeparated fun _ _ _ _ => hl.inside

theorem tracks_arrayExpr (hl : D.TracksLevel l) {t t' : Token} (hLike : D.like t t') :
    D.Tracks (D.Inside n) (arrayExpr l ctx t) (arrayExpr l ctx t') D.Same (D.Inside n) := by
  refine tracks_bind (tracks_expressions hl _) fun es es' hes => ?_
  refine tracks_take_bind (by decide) (Taken.inside · rfl) fun _ _ _ _ => ?_
  refine tracks_spanFrom_bind (fun h => h.lasts trivial) hLike fun v v' hv => ?_
  refine tracks_pure ?_ fun _ _ h => h
  change Expr.respan _ _ = Expr.respan _ _
  rw [Expr.respan, Expr.respan, Expr.respanAll_eq, Expr.respanAll_eq]
  exact congrArg₂ Expr.array hes hv

theorem tracks_primary (hl : D.TracksLevel l) :
    D.Tracks (D.Facing b (n + 1)) (primary l ctx) (primary l ctx) D.Same (D.Inside n) := by
  refine tracks_peek_bind fun t t' hLike => ?_
  have hNumber : numberValue t' = numberValue t := by
    rw [numberValue, numberValue, literal_eq hLike]
  have hString : stringValue t' = stringValue t := by
    rw [stringValue, stringValue, literal_eq hLike]
  rw [kind_eq hLike, hNumber, hString, lexeme_eq hLike]
  split
  · next h =>
    exact tracks_leaf hLike (h ▸ by decide) (h ▸ rfl) fun v v' hv => congrArg (Expr.number _) hv
  · next h =>
    exact tracks_leaf hLike (h ▸ by decide) (h ▸ rfl) fun v v' hv => congrArg (Expr.string _) hv
  · next h =>
    exact tracks_leaf hLike (h ▸ by decide) (h ▸ rfl) fun v v' hv => congrArg (Expr.boolean _) hv
  · next h =>
    exact tracks_leaf hLike (h ▸ by decide) (h ▸ rfl) fun v v' hv => congrArg (Expr.boolean _) hv
  · next h =>
    exact tracks_leaf hLike (h ▸ by decide) (h ▸ rfl) fun v v' hv => congrArg Expr.null hv
  · next h =>
    exact tracks_advance_bind (h ▸ by decide) (Taken.inside_lt (h ▸ rfl)) fun _ _ =>
      tracks_thisExpr hLike
  · next h =>
    exact tracks_advance_bind (h ▸ by decide) (Taken.inside_lt (h ▸ rfl)) fun _ _ =>
      tracks_superExpr hLike
  · next h =>
    exact tracks_leaf hLike (h ▸ by decide) (h ▸ rfl) fun v v' hv =>
      congrArg (fun s => Expr.name ⟨t.lexeme, s⟩) hv
  · next h =>
    exact tracks_advance_bind (h ▸ by decide) (Taken.inside_lt (h ▸ rfl)) fun _ _ =>
      tracks_grouped hl
  · next h =>
    exact tracks_advance_bind (h ▸ by decide) (Taken.inside_lt (h ▸ rfl)) fun _ _ =>
      tracks_arrayExpr hl hLike
  · exact tracks_failAt hLike

/-! ## Operators -/

theorem tracks_suffixed (hl : D.TracksLevel l) {start start' : Token} {e e' : Expr} (suffix : Suffix)
    (hLike : D.like start start') (he : D.Same e e') :
    D.Tracks (D.Inside n) (suffixed l ctx start e suffix) (suffixed l ctx start' e' suffix) D.Same
      (D.Inside n) := by
  change e.respan _ = e'.respan _ at he
  cases suffix with
  | call =>
    refine tracks_bind (tracks_expressions hl _) fun es es' hes => ?_
    refine tracks_take_bind (by decide) (Taken.inside · rfl) fun _ _ _ _ => ?_
    refine tracks_spanFrom_bind (fun h => h.lasts trivial) hLike fun v v' hv => ?_
    refine tracks_pure ?_ fun _ _ h => h
    change Expr.respan _ _ = Expr.respan _ _
    rw [Expr.respan, Expr.respan, Expr.respanAll_eq, Expr.respanAll_eq, he]
    exact congrArg₂ (Expr.call _) hes hv
  | member =>
    refine tracks_from (fun _ _ => .inl) (tracks_ident_bind fun m m' hm => ?_)
    refine tracks_spanFrom_bind (fun h => h.lasts trivial) hLike fun v v' hv => ?_
    refine tracks_pure ?_ fun _ _ h => h
    change Expr.respan _ _ = Expr.respan _ _
    rw [Expr.respan, Expr.respan, he]
    exact congrArg₂ (Expr.member _) hm hv
  | index =>
    refine tracks_bind hl.inside fun i i' hi => ?_
    refine tracks_take_bind (by decide) (Taken.inside · rfl) fun _ _ _ _ => ?_
    refine tracks_spanFrom_bind (fun h => h.lasts trivial) hLike fun v v' hv => ?_
    refine tracks_pure ?_ fun _ _ h => h
    change Expr.respan _ _ = Expr.respan _ _
    rw [Expr.respan, Expr.respan, he]
    exact congrArg₂ (Expr.index _) hi hv

theorem wanted_of_tier {β : Type} {wanted : TokenKind → Option β} {tier : Nat}
    (hTier : OfTier wanted tier) (kind : TokenKind) (c : β) (h : wanted kind = some c) :
    kind ≠ .endOfInput ∧ kind.closes = false := by
  have hMark := Terminal.ne_end_of_isMark (hTier.isMark h)
  have hEq := hTier.tier_eq h
  have hPos := hTier.pos
  refine ⟨hMark, ?_⟩
  cases kind <;> first | rfl | exact absurd (hEq ▸ hPos) (by decide)

/-- A start and rounds that are opened by tokens of one tier. -/
theorem tracks_chained {β : Type} {start : Parser Expr} {wanted : TokenKind → Option β}
    {step step' : Expr → β → Parser Expr} {tier : Nat} (hTier : OfTier wanted tier)
    (hStart : D.Tracks (D.Facing b (n + 1)) start start D.Same (D.Inside n))
    (hStep : ∀ n e e' c, D.Same e e' →
      D.Tracks (D.Inside n) (step e c) (step' e' c) D.Same (D.Inside n)) :
    D.Tracks (D.Facing b (n + 1)) (start >>= fun e => chain (acceptAs wanted) step e)
      (start >>= fun e => chain (acceptAs wanted) step' e) D.Same (D.Inside n) := by
  refine tracks_bind hStart fun e e' he => ?_
  refine tracks_chain (measured_facing True) (J := D.Inside) ?_ hStep he
  intro n f g post hNone hSome
  exact tracks_acceptAs_bind (wanted_of_tier hTier) hNone hSome

theorem tracks_call (hl : D.TracksLevel l) :
    D.Tracks (D.Facing b (n + 1)) (call l ctx) (call l ctx) D.Same (D.Inside n) := by
  refine tracks_peek_bind fun start start' hLike => tracks_from (fun _ _ h => h.facing) ?_
  exact tracks_chained ofTier_suffix (tracks_primary hl) fun _ _ _ suffix he =>
    tracks_suffixed hl suffix hLike he

theorem tracks_leftAssoc {β : Type} {op : TokenKind → Option β}
    {join : β → Expr → Expr → Option Span → Expr} {operand : Parser Expr} {tier : Nat}
    (hTier : OfTier op tier)
    (hJoin : ∀ c {e e' r r' : Expr} {v v' : Option Span}, D.Same e e' → D.Same r r' → D.Same v v' →
      D.Same (join c e r v) (join c e' r' v'))
    (hOperand : ∀ b n, D.Tracks (D.Facing b (n + 1)) operand operand D.Same (D.Inside n)) :
    D.Tracks (D.Facing b (n + 1)) (leftAssoc op join operand) (leftAssoc op join operand) D.Same
      (D.Inside n) := by
  refine tracks_peek_bind fun start start' hLike => tracks_from (fun _ _ h => h.facing) ?_
  refine tracks_chained hTier (hOperand b n) fun n e e' c he => ?_
  refine tracks_bind (tracks_of_succ (measured_facing True) (hOperand False)) fun r r' hr => ?_
  refine tracks_spanFrom_bind (fun h => h.lasts trivial) hLike fun v v' hv => ?_
  exact tracks_pure (hJoin c he hr hv) fun _ _ h => h

theorem same_binary (op : BinaryOp) {e e' r r' : Expr} {v v' : Option Span} (he : D.Same e e')
    (hr : D.Same r r') (hv : D.Same v v') :
    D.Same (Expr.binary op e r v) (Expr.binary op e' r' v') := by
  change Expr.respan _ _ = Expr.respan _ _ at he hr ⊢
  rw [Expr.respan, Expr.respan, he, hr]
  exact congrArg _ hv

theorem same_logical (op : LogicalOp) {e e' r r' : Expr} {v v' : Option Span} (he : D.Same e e')
    (hr : D.Same r r') (hv : D.Same v v') :
    D.Same (Expr.logical op e r v) (Expr.logical op e' r' v') := by
  change Expr.respan _ _ = Expr.respan _ _ at he hr ⊢
  rw [Expr.respan, Expr.respan, he, hr]
  exact congrArg _ hv

theorem tracks_unary (hl : D.TracksLevel l) (b : Prop) (n : Nat) :
    D.Tracks (D.Facing b (n + 1)) (unary l ctx) (unary l ctx) D.Same (D.Inside n) := by
  refine tracks_peek_bind fun t t' hLike => ?_
  rw [kind_eq hLike]
  split
  · next op hOp =>
    obtain ⟨hEnd, hCloses⟩ : t.kind ≠ .endOfInput ∧ t.kind.closes = false := by
      generalize t.kind = kind at hOp ⊢
      cases kind <;> first | exact ⟨by decide, rfl⟩ | cases hOp
    refine tracks_advance_bind hEnd (Taken.inside_lt hCloses) fun _ _ => ?_
    refine tracks_bind (tracks_of_succ (measured_facing True) (hl.operand ctx)) fun e e' he => ?_
    refine tracks_spanFrom_bind (fun h => h.lasts trivial) hLike fun v v' hv => ?_
    refine tracks_pure ?_ fun _ _ h => h
    change Expr.respan _ _ = Expr.respan _ _ at he ⊢
    rw [Expr.respan, Expr.respan, he]
    exact congrArg _ hv
  · exact tracks_from (fun _ _ h => h.facing) (tracks_call hl)

theorem tracks_logicOr (hl : D.TracksLevel l) :
    D.Tracks (D.Facing b (n + 1)) (logicOr l ctx) (logicOr l ctx) D.Same (D.Inside n) := by
  refine tracks_leftAssoc ofTier_or same_logical fun _ _ => ?_
  refine tracks_leftAssoc ofTier_and same_logical fun _ _ => ?_
  refine tracks_leftAssoc ofTier_equality same_binary fun _ _ => ?_
  refine tracks_leftAssoc ofTier_comparison same_binary fun _ _ => ?_
  refine tracks_leftAssoc ofTier_term same_binary fun _ _ => ?_
  exact tracks_leftAssoc ofTier_factor same_binary (tracks_unary hl)

/-- Whether something can be assigned to does not depend on spans. -/
theorem assignTo_respan (f : Option Span → Option Span) (target value : Expr) (v : Option Span) :
    assignTo? (target.respan f) (value.respan f) (f v) =
      (assignTo? target value v).map (Expr.respan f) := by
  cases target <;> simp [Expr.respan, assignTo?]

theorem tracks_assignment (hl : D.TracksLevel l) (n : Nat) :
    D.Tracks (D.Facing b (n + 1)) (assignment l ctx) (assignment l ctx) D.Same (D.Inside n) := by
  refine tracks_peek_bind fun start start' hLike => tracks_from (fun _ _ h => h.facing) ?_
  refine tracks_bind (tracks_logicOr hl) fun target target' hTarget => ?_
  refine tracks_check_bind fun c t hc => tracks_ite (fun hTrue => ?_) fun _ => ?_
  · have hKind := hc.mp hTrue
    refine tracks_advance_bind (hKind ▸ by decide) (Taken.inside · (hKind ▸ rfl)) fun t' hEquals => ?_
    refine tracks_bind hl.inside fun value value' hValue => ?_
    refine tracks_spanFrom_bind (fun h => h.lasts trivial) hLike fun v v' hv => ?_
    have hAssign := assignTo_respan D.left target value v
    change target.respan _ = target'.respan _ at hTarget
    change value.respan _ = value'.respan _ at hValue
    change D.left v = D.right v' at hv
    rw [hTarget, hValue, hv, assignTo_respan] at hAssign
    cases hLeft : assignTo? target value v with
    | none =>
      cases hRight : assignTo? target' value' v' with
      | none => exact tracks_failAt hEquals
      | some e' =>
        rw [hLeft, hRight] at hAssign
        cases hAssign
    | some e =>
      cases hRight : assignTo? target' value' v' with
      | none =>
        rw [hLeft, hRight] at hAssign
        cases hAssign
      | some e' =>
        rw [hLeft, hRight] at hAssign
        exact tracks_pure (Option.some.inj hAssign).symm fun _ _ h => h
  · exact tracks_pure hTarget fun _ _ h => h.facing

/-! ## Parts of statements -/

theorem tracks_keyword_bind {α α' : Type} {R : α → α' → Prop} {post : Input → Input → Prop}
    {f : Token → Parser α} {g : Token → Parser α'} {t : Token} {kind : TokenKind}
    (hKind : t.kind = kind) (hPlain : kind ≠ .endOfInput ∧ kind.closes = false)
    (h : ∀ t', D.like t t' → D.Tracks (D.Inside n) (f t) (g t') R post) :
    D.Tracks (D.Sees b (n + 1) t) (advance >>= f) (advance >>= g) R post :=
  tracks_advance_bind (hKind ▸ hPlain.1) (Taken.inside_lt (hKind ▸ hPlain.2)) h

theorem tracks_terminated {α α' : Type} {R : α → α' → Prop} {a : α} {a' : α'} (h : R a a') :
    D.Tracks (D.Inside n) (terminated a) (terminated a') R (D.After n) := by
  refine tracks_accept_bind (by decide) Taken.after ?_ ?_
  · exact tracks_pure h fun _ _ h => h
  refine tracks_atClose_bind fun c t _ => tracks_from (fun _ _ h => h.facing) ?_
  refine tracks_ite (fun _ => tracks_pure h fun _ _ => .inl) fun _ => ?_
  exact tracks_peek_bind fun t t' hLike => tracks_failAt hLike

theorem tracks_block (hl : D.TracksLevel l) {what : String} (n : Nat) :
    D.Tracks (D.Facing b (n + 1)) (block l ctx what) (block l ctx what) D.Same (D.After n) := by
  refine tracks_take_bind (by decide) (Taken.inside_lt rfl) fun opening opening' _ hLike => ?_
  refine tracks_untilClose_bind (hl.declaration ctx) fun body body' _ _ hBody => ?_
  refine tracks_spanFrom_bind After.lasts hLike fun v v' hv => ?_
  refine tracks_pure ?_ fun _ _ h => h
  simp only [Same, Spanned.respan, Block.respan, Stmt.respanAll_eq] at hBody hv ⊢
  rw [hBody, hv]

theorem tracks_parenthesized (hl : D.TracksLevel l) {keyword : String} :
    D.Tracks (D.Inside n) (parenthesized l ctx keyword) (parenthesized l ctx keyword) D.Same
      (D.Inside n) := by
  refine tracks_take_bind (by decide) (Taken.inside · rfl) fun _ _ _ _ => ?_
  refine tracks_bind hl.inside fun e e' he => ?_
  refine tracks_take_bind (by decide) (Taken.inside · rfl) fun _ _ _ _ => ?_
  exact tracks_pure he fun _ _ h => h

theorem name_eq {id id' : Ident} (h : D.Same id id') : id'.name = id.name :=
  (congrArg Ident.name h).symm

theorem names_eq {ids ids' : List Ident} (h : D.Same ids ids') :
    ids'.map (·.name) = ids.map (·.name) := by
  have hNames := congrArg (List.map (·.name)) h
  simp only [Spanned.respan, List.map_map] at hNames
  exact hNames.symm

theorem tracks_param {before before' : List Ident} (h : D.Same before before') :
    D.Tracks (D.Inside n) (param before) (param before') D.Same (D.Inside n) := by
  refine tracks_from (fun _ _ => .inl) (tracks_ident_bind fun id id' hId => ?_)
  have hAny : ∀ ids : List Ident, (ids.any fun other => other.name = id.name) =
      (ids.map (·.name)).any (· = id.name) := fun ids => by rw [List.any_map]; rfl
  rw [name_eq hId, hAny before, hAny before', names_eq h]
  refine tracks_ite (fun _ => ?_) fun _ => tracks_pure hId fun _ _ h => h
  exact tracks_previous_bind (fun h => h.lasts trivial) fun t t' hLike => tracks_failAt hLike

theorem tracks_funcDef (hl : D.TracksLevel l) {what : String} {t : Token}
    (hKind : t.kind = .kwFunc) :
    D.Tracks (D.Sees b (n + 1) t) (funcDef l ctx what) (funcDef l ctx what) D.Same
      (D.After n) := by
  refine tracks_keyword_bind hKind (by decide) fun t' hLike => ?_
  refine tracks_from (fun _ _ => .inl) (tracks_ident_bind fun id id' hId => ?_)
  refine tracks_take_bind (by decide) (Taken.inside · rfl) fun _ _ _ _ => ?_
  refine tracks_bind (tracks_commaSeparated fun before before' n h => tracks_param h)
    fun ids ids' hIds => ?_
  refine tracks_take_bind (by decide) (Taken.inside · rfl) fun _ _ _ _ => ?_
  refine tracks_bind (tracks_of_succ measured_after (tracks_block hl)) fun body body' hBody => ?_
  refine tracks_spanFrom_bind After.lasts hLike fun v v' hv => ?_
  refine tracks_pure ?_ fun _ _ h => h
  simp only [Same, Spanned.respan, FuncDef.respan] at hId hIds hBody hv ⊢
  rw [hId, hIds, hBody, hv]

theorem tracks_superclass {id id' : Ident} (hId : D.Same id id') :
    D.Tracks (D.Inside n) (superclass id) (superclass id') D.Same (D.Inside n) := by
  refine tracks_accept_bind (by decide) (Taken.inside · rfl) ?_ ?_
  · refine tracks_from (fun _ _ => .inl) (tracks_ident_bind fun parent parent' hParent => ?_)
    rw [name_eq hId, name_eq hParent]
    refine tracks_ite (fun _ => ?_) fun _ => ?_
    · exact tracks_previous_bind (fun h => h.lasts trivial) fun t t' hLike => tracks_failAt hLike
    · exact tracks_pure (congrArg some hParent) fun _ _ h => h
  · exact tracks_pure rfl fun _ _ h => h

theorem tracks_method (hl : D.TracksLevel l) (n : Nat) :
    D.Tracks (D.Facing b (n + 1)) (method l ctx) (method l ctx) D.Same (D.After n) := by
  refine tracks_peek_bind fun t t' hLike => ?_
  rw [kind_eq hLike]
  exact tracks_ite (tracks_funcDef hl) fun _ => tracks_failAt hLike

theorem tracks_classDef (hl : D.TracksLevel l) {t : Token} (hKind : t.kind = .kwClass) :
    D.Tracks (D.Sees b (n + 1) t) (classDef l ctx) (classDef l ctx) D.Same (D.After n) := by
  refine tracks_keyword_bind hKind (by decide) fun t' hLike => ?_
  refine tracks_from (fun _ _ => .inl) (tracks_ident_bind fun id id' hId => ?_)
  refine tracks_bind (tracks_superclass hId) fun parent parent' hParent => ?_
  refine tracks_take_bind (by decide) (Taken.inside · rfl) fun _ _ _ _ => ?_
  have hSome : parent'.isSome = parent.isSome := by
    have hBoth := congrArg Option.isSome hParent
    simp only [Spanned.respan, Option.isSome_map] at hBoth
    exact hBoth.symm
  rw [hSome]
  refine tracks_untilClose_bind (tracks_method hl) fun methods methods' _ _ hMethods => ?_
  refine tracks_spanFrom_bind After.lasts hLike fun v v' hv => ?_
  refine tracks_pure ?_ fun _ _ h => h
  simp only [Same, Spanned.respan, ClassDef.respan, FuncDef.respanAll_eq] at hId hParent hMethods hv ⊢
  rw [hId, hParent, hMethods, hv]

theorem tracks_varDecl (hl : D.TracksLevel l) {t : Token} (hKind : t.kind = .kwVar) :
    D.Tracks (D.Sees b (n + 1) t) (varDecl l ctx) (varDecl l ctx) D.Same (D.Inside n) := by
  refine tracks_keyword_bind hKind (by decide) fun t' hLike => ?_
  refine tracks_from (fun _ _ => .inl) (tracks_ident_bind fun id id' hId => ?_)
  have hRest : ∀ value value' : Option Expr, D.Same value value' → D.Tracks (D.Inside n)
      (do pure (Simple.var id value (← spanFrom t))) (do pure (Simple.var id' value' (← spanFrom t')))
      D.Same (D.Inside n) := by
    intro value value' hValue
    refine tracks_spanFrom_bind (fun h => h.lasts trivial) hLike fun v v' hv => ?_
    refine tracks_pure ?_ fun _ _ h => h
    simp only [Same, Spanned.respan, Simple.respan] at hId hValue hv ⊢
    rw [hId, hValue, hv]
  refine tracks_accept_bind (by decide) (Taken.inside · rfl) ?_ ?_
  · exact tracks_bind (tracks_map hl.inside fun e e' he => same_some he) hRest
  · exact tracks_bind (R := D.Same) (tracks_pure rfl fun _ _ h => h) hRest

theorem tracks_constDecl (hl : D.TracksLevel l) {t : Token} (hKind : t.kind = .kwConst) :
    D.Tracks (D.Sees b (n + 1) t) (constDecl l ctx) (constDecl l ctx) D.Same (D.Inside n) := by
  refine tracks_keyword_bind hKind (by decide) fun t' hLike => ?_
  refine tracks_from (fun _ _ => .inl) (tracks_ident_bind fun id id' hId => ?_)
  rw [name_eq hId]
  refine tracks_take_bind (by decide) (Taken.inside · rfl) fun _ _ _ _ => ?_
  refine tracks_bind hl.inside fun value value' hValue => ?_
  refine tracks_spanFrom_bind (fun h => h.lasts trivial) hLike fun v v' hv => ?_
  refine tracks_pure ?_ fun _ _ h => h
  simp only [Same, Spanned.respan, Simple.respan] at hId hValue hv ⊢
  rw [hId, hValue, hv]

theorem tracks_exprStmt (hl : D.TracksLevel l) :
    D.Tracks (D.Facing b (n + 1)) (exprStmt l ctx) (exprStmt l ctx) D.Same (D.Inside n) := by
  refine tracks_peek_bind fun start start' hLike => tracks_from (fun _ _ h => h.facing.fresh) ?_
  refine tracks_bind (hl.expression ctx n) fun e e' he => ?_
  refine tracks_spanFrom_bind (fun h => h.lasts trivial) hLike fun v v' hv => ?_
  refine tracks_pure ?_ fun _ _ h => h
  simp only [Same, Spanned.respan, Simple.respan] at he hv ⊢
  rw [he, hv]

/-! ## Control flow -/

theorem tracks_elifClause (hl : D.TracksLevel l) {t : Token} (hKind : t.kind = .kwElif) :
    D.Tracks (D.Sees b (n + 1) t) (elifClause l ctx) (elifClause l ctx) D.Same (D.After n) := by
  refine tracks_keyword_bind hKind (by decide) fun t' hLike => ?_
  refine tracks_bind (tracks_parenthesized hl) fun c c' hc => ?_
  refine tracks_bind (tracks_of_succ measured_after (tracks_block hl)) fun body body' hBody => ?_
  refine tracks_spanFrom_bind After.lasts hLike fun v v' hv => ?_
  refine tracks_pure ?_ fun _ _ h => h
  simp only [Same, Spanned.respan, ElifClause.respan] at hc hBody hv ⊢
  rw [hc, hBody, hv]

theorem tracks_elifClauses (hl : D.TracksLevel l) :
    D.Tracks (D.After n) (elifClauses l ctx) (elifClauses l ctx) D.Same (D.After n) := by
  refine tracks_bind (tracks_chain measured_after (R := D.Same)
    (J := fun n s u => ∃ t, t.kind = .kwElif ∧ D.Sees True (n + 1) t s u) ?_ ?_ same_nil)
    fun clauses clauses' h => tracks_pure (same_reverse h) fun _ _ h => h
  · intro n f g post hNone hSome
    simp only [bind_assoc]
    refine tracks_check_after_bind (by decide) (fun hOpen => (D.apart hOpen).1) (fun t hKind => ?_) ?_
    · simp only [if_true, pure_bind]
      exact tracks_from (fun _ _ h => ⟨t, hKind, h⟩) (hSome ())
    · simpa using hNone
  · rintro n clauses clauses' _ hSame s u ⟨t, hKind, hSees⟩
    refine tracks_bind (tracks_elifClause hl hKind) (fun c c' hc => ?_) s u hSees
    exact tracks_pure (same_cons hc hSame) fun _ _ h => h

theorem tracks_ifStmt (hl : D.TracksLevel l) {t : Token} (hKind : t.kind = .kwIf) :
    D.Tracks (D.Sees b (n + 1) t) (ifStmt l ctx) (ifStmt l ctx) D.Same (D.After n) := by
  refine tracks_keyword_bind hKind (by decide) fun t' hLike => ?_
  refine tracks_bind (tracks_parenthesized hl) fun c c' hc => ?_
  refine tracks_bind (tracks_of_succ measured_after (tracks_block hl)) fun body body' hBody => ?_
  refine tracks_bind (tracks_elifClauses hl) fun elifs elifs' hElifs => ?_
  have hRest : ∀ other other' : Option Block, D.Same other other' → D.Tracks (D.After n)
      (do pure (Stmt.ifElse c body elifs other (← spanFrom t)))
      (do pure (Stmt.ifElse c' body' elifs' other' (← spanFrom t'))) D.Same (D.After n) := by
    intro other other' hOther
    refine tracks_spanFrom_bind After.lasts hLike fun v v' hv => ?_
    refine tracks_pure ?_ fun _ _ h => h
    simp only [Same, Spanned.respan, Stmt.respan, ElifClause.respanAll_eq, Block.respanOption_eq]
      at hc hBody hElifs hOther hv ⊢
    rw [hc, hBody, hElifs, hOther, hv]
  refine tracks_accept_after_bind (by decide) rfl (fun hOpen => (D.apart hOpen).2) ?_ ?_
  · refine tracks_bind (tracks_map ?_ fun other other' h => same_some h) hRest
    exact tracks_of_succ measured_after (tracks_block hl)
  · exact tracks_bind (R := D.Same) (tracks_pure rfl fun _ _ h => h) hRest

theorem tracks_whileStmt (hl : D.TracksLevel l) {t : Token} (hKind : t.kind = .kwWhile) :
    D.Tracks (D.Sees b (n + 1) t) (whileStmt l ctx) (whileStmt l ctx) D.Same (D.After n) := by
  refine tracks_keyword_bind hKind (by decide) fun t' hLike => ?_
  refine tracks_bind (tracks_parenthesized hl) fun c c' hc => ?_
  refine tracks_bind (tracks_of_succ measured_after (tracks_block hl)) fun body body' hBody => ?_
  refine tracks_spanFrom_bind After.lasts hLike fun v v' hv => ?_
  refine tracks_pure ?_ fun _ _ h => h
  simp only [Same, Spanned.respan, Stmt.respan] at hc hBody hv ⊢
  rw [hc, hBody, hv]

theorem tracks_forStart (hl : D.TracksLevel l) :
    D.Tracks (D.Inside n) (forStart l ctx) (forStart l ctx) D.Same (D.Inside n) := by
  refine tracks_pos fun m hm => ?_
  subst hm
  refine tracks_peek_bind fun t t' hLike => ?_
  have hSome : ∀ {p : Parser Simple}, D.Tracks (D.Sees True (m + 1) t) p p D.Same (D.Inside m) →
      D.Tracks (D.Sees True (m + 1) t) (some <$> p) (some <$> p) D.Same (D.Inside (m + 1)) :=
    fun h => tracks_map (tracks_mono h (fun _ _ h => h) (fun _ _ h => h.mono (Nat.le_succ m))
      fun _ _ h => h) fun e e' he => same_some he
  rw [kind_eq hLike]
  split
  · next h => exact hSome (tracks_varDecl hl h)
  · next h => exact hSome (tracks_constDecl hl h)
  · exact tracks_pure rfl fun _ _ h => h.facing
  · exact hSome (tracks_from (fun _ _ h => h.facing) (tracks_exprStmt hl))

theorem tracks_optionalBefore (hl : D.TracksLevel l) {close : TokenKind}
    (hEnd : close ≠ .endOfInput) :
    D.Tracks (D.After n) (optionalBefore l ctx close) (optionalBefore l ctx close) D.Same
      (D.Inside n) := by
  refine tracks_after ?_ ?_
  · refine tracks_check_bind fun c t _ => tracks_from (fun _ _ h => h.facing) ?_
    refine tracks_ite (fun _ => tracks_pure rfl fun _ _ h => h) fun _ => ?_
    exact tracks_map hl.inside fun e e' he => same_some he
  · intro s hRest
    have hNot : D.finish.kind ≠ close := fun h => hEnd (h.symm.trans D.ending)
    have hCheck : check close s = .ok (false, s) := by
      unfold check
      rw [bind_ok (peek_finish hRest), decide_eq_false hNot]
      rfl
    unfold optionalBefore
    rw [bind_ok hCheck, if_neg Bool.false_ne_true, map_eq_pure_bind]
    exact stuck_bind (hl.stuck ctx) s hRest

theorem tracks_forStmt (hl : D.TracksLevel l) {t : Token} (hKind : t.kind = .kwFor) :
    D.Tracks (D.Sees b (n + 1) t) (forStmt l ctx) (forStmt l ctx) D.Same (D.After n) := by
  refine tracks_keyword_bind hKind (by decide) fun t' hLike => ?_
  refine tracks_take_bind (by decide) (Taken.inside · rfl) fun _ _ _ _ => ?_
  refine tracks_bind (tracks_forStart hl) fun i i' hi => ?_
  refine tracks_take_bind (by decide) Taken.after fun _ _ _ _ => ?_
  refine tracks_bind (tracks_optionalBefore hl (by decide)) fun c c' hc => ?_
  refine tracks_take_bind (by decide) Taken.after fun _ _ _ _ => ?_
  refine tracks_bind (tracks_optionalBefore hl (by decide)) fun e e' he => ?_
  refine tracks_take_bind (by decide) (Taken.inside · rfl) fun _ _ _ _ => ?_
  refine tracks_bind (tracks_of_succ measured_after (tracks_block hl)) fun body body' hBody => ?_
  refine tracks_spanFrom_bind After.lasts hLike fun v v' hv => ?_
  refine tracks_pure ?_ fun _ _ h => h
  simp only [Same, Spanned.respan, Stmt.respan] at hi hc he hBody hv ⊢
  rw [hi, hc, he, hBody, hv]

/-- A word that stands alone, which needs something around it. -/
theorem tracks_jump {needed : Bool} {cause : ParseCause} {make : Option Span → Stmt} {t : Token}
    {kind : TokenKind} (hKind : t.kind = kind) (hPlain : kind ≠ .endOfInput ∧ kind.closes = false)
    (hMake : ∀ f v, (make v).respan f = make (f v)) :
    D.Tracks (D.Sees b (n + 1) t)
      (do
        let keyword ← advance
        if needed then terminated (make (← spanFrom keyword)) else failAt keyword cause)
      (do
        let keyword ← advance
        if needed then terminated (make (← spanFrom keyword)) else failAt keyword cause)
      D.Same (D.After n) := by
  refine tracks_keyword_bind hKind hPlain fun t' hLike => ?_
  refine tracks_ite (fun _ => ?_) fun _ => tracks_failAt hLike
  refine tracks_spanFrom_bind (fun h => h.lasts trivial) hLike fun v v' hv => ?_
  refine tracks_terminated ?_
  change (make v).respan _ = (make v').respan _
  rw [hMake, hMake]
  exact congrArg make hv

theorem tracks_returnValue (hl : D.TracksLevel l) :
    D.Tracks (D.Inside n) (returnValue l ctx) (returnValue l ctx) D.Same (D.Inside n) := by
  refine tracks_check_bind fun c t _ => tracks_from (fun _ _ h => h.facing) ?_
  refine tracks_ite (fun _ => tracks_pure rfl fun _ _ h => h) fun _ => ?_
  refine tracks_atClose_bind fun c t _ => tracks_from (fun _ _ h => h.facing) ?_
  refine tracks_ite (fun _ => tracks_pure rfl fun _ _ h => h) fun _ => ?_
  exact tracks_map hl.inside fun e e' he => same_some he

theorem tracks_returnStmt (hl : D.TracksLevel l) {t : Token} (hKind : t.kind = .kwReturn) :
    D.Tracks (D.Sees b (n + 1) t) (returnStmt l ctx) (returnStmt l ctx) D.Same (D.After n) := by
  refine tracks_keyword_bind hKind (by decide) fun t' hLike => ?_
  refine tracks_ite (fun _ => ?_) fun _ => tracks_failAt hLike
  refine tracks_bind (tracks_returnValue hl) fun e e' he => ?_
  refine tracks_spanFrom_bind (fun h => h.lasts trivial) hLike fun v v' hv => ?_
  refine tracks_terminated ?_
  simp only [Same, Spanned.respan, Stmt.respan] at he hv ⊢
  rw [he, hv]

theorem tracks_tryStmt (hl : D.TracksLevel l) {t : Token} (hKind : t.kind = .kwTry) :
    D.Tracks (D.Sees b (n + 1) t) (tryStmt l ctx) (tryStmt l ctx) D.Same (D.After n) := by
  refine tracks_keyword_bind hKind (by decide) fun t' hLike => ?_
  refine tracks_bind (tracks_of_succ measured_after (tracks_block hl)) fun body body' hBody => ?_
  refine tracks_expect_bind (by decide) (Taken.inside · rfl) fun _ _ _ _ => ?_
  refine tracks_take_bind (by decide) (Taken.inside · rfl) fun _ _ _ _ => ?_
  refine tracks_from (fun _ _ => .inl) (tracks_ident_bind fun id id' hId => ?_)
  refine tracks_take_bind (by decide) (Taken.inside · rfl) fun _ _ _ _ => ?_
  refine tracks_bind (tracks_of_succ measured_after (tracks_block hl)) fun last last' hLast => ?_
  refine tracks_spanFrom_bind After.lasts hLike fun v v' hv => ?_
  refine tracks_pure ?_ fun _ _ h => h
  simp only [Same, Spanned.respan, Stmt.respan] at hBody hId hLast hv ⊢
  rw [hBody, hId, hLast, hv]

theorem tracks_throwStmt (hl : D.TracksLevel l) {t : Token} (hKind : t.kind = .kwThrow) :
    D.Tracks (D.Sees b (n + 1) t) (throwStmt l ctx) (throwStmt l ctx) D.Same (D.After n) := by
  refine tracks_keyword_bind hKind (by decide) fun t' hLike => ?_
  refine tracks_bind hl.inside fun e e' he => ?_
  refine tracks_spanFrom_bind (fun h => h.lasts trivial) hLike fun v v' hv => ?_
  refine tracks_terminated ?_
  simp only [Same, Spanned.respan, Stmt.respan] at he hv ⊢
  rw [he, hv]

/-! ## Declarations and levels -/

theorem tracks_simple {pre : Input → Input → Prop} {p : Parser Simple}
    (h : D.Tracks pre p p D.Same (D.Inside n)) :
    D.Tracks pre (p >>= fun s => terminated (Stmt.simple s))
      (p >>= fun s => terminated (Stmt.simple s))
      D.Same (D.After n) := by
  refine tracks_bind h fun s s' hs => tracks_terminated ?_
  simp only [Same, Spanned.respan, Stmt.respan] at hs ⊢
  rw [hs]

theorem tracks_declaration (hl : D.TracksLevel l) (n : Nat) :
    D.Tracks (D.Facing b (n + 1)) (declaration l ctx) (declaration l ctx) D.Same (D.After n) := by
  refine tracks_peek_bind fun t t' hLike => ?_
  rw [kind_eq hLike]
  split
  · next h =>
    refine tracks_map (tracks_classDef hl h) fun c c' hc => ?_
    simp only [Same, Spanned.respan, Stmt.respan] at hc ⊢
    rw [hc]
  · next h =>
    refine tracks_map (tracks_funcDef hl h) fun fn fn' hfn => ?_
    simp only [Same, Spanned.respan, Stmt.respan] at hfn ⊢
    rw [hfn]
  · next h => exact tracks_simple (tracks_varDecl hl h)
  · next h => exact tracks_simple (tracks_constDecl hl h)
  · next h => exact tracks_ifStmt hl h
  · next h => exact tracks_whileStmt hl h
  · next h => exact tracks_forStmt hl h
  · next h => exact tracks_jump h (by decide) fun f v => by rw [Stmt.respan]
  · next h => exact tracks_jump h (by decide) fun f v => by rw [Stmt.respan]
  · next h => exact tracks_returnStmt hl h
  · next h => exact tracks_tryStmt hl h
  · next h => exact tracks_throwStmt hl h
  · refine tracks_map (tracks_from (fun _ _ h => h.facing) (tracks_block hl n)) fun body body' h => ?_
    simp only [Same, Spanned.respan, Stmt.respan] at h ⊢
    rw [h]
  · exact tracks_simple (tracks_from (fun _ _ h => h.facing) (tracks_exprStmt hl))

/-- What opens an expression is taken, so there is something ahead of one. -/
theorem stuck_expression (room : Nat) : D.Stuck ((level room).expression ctx) := by
  intro s hRest
  cases hRun : (level room).expression ctx s with
  | error e => exact ⟨e, rfl⟩
  | ok q =>
    obtain ⟨xs, hTaken, hForm⟩ := (level_sound room).expression ctx _ s q.1 q.2 rfl hRun
    have hNone : s.terminals = [] := by
      rw [Input.terminals, hRest]
      exact Token.terminals_end D.ending
    have hEmpty := hTaken.terminals
    rw [hNone] at hEmpty
    exact absurd (List.append_eq_nil_iff.mp hEmpty.symm).1
      (forms_expression_opens xs q.1 hForm).ne_nil

theorem tracks_level (room : Nat) : D.TracksLevel (level room) := by
  induction room with
  | zero =>
    have hNested : ∀ {α : Type} {R : α → α → Prop} {n : Nat} {post : Input → Input → Prop},
        D.Tracks (D.Facing False (n + 1)) (tooNested : Parser α) tooNested R post :=
      tracks_peek_bind fun t t' hLike => tracks_failAt hLike
    exact ⟨fun _ _ => hNested, fun _ _ => hNested, fun _ _ => hNested, fun _ => stuck_expression 0⟩
  | succ room ih =>
    exact ⟨fun _ => tracks_assignment ih, fun _ => tracks_unary ih False,
      fun _ => tracks_declaration ih, fun _ => stuck_expression (room + 1)⟩

/-! ## Programs -/

/-- Statements up to the end of input, the last one first, after those in `before`. -/
def statements (fuel : Nat) (before : List Stmt) : Parser (List Stmt) :=
  chainUpTo (do if ← check .endOfInput then pure none else pure (some ()))
    (fun body _ => do pure ((← (level maxNesting).declaration .top) :: body)) fuel before

/-- A program is its statements between the token that is first ahead and the end of input. -/
theorem program_eq : program = (do
    let start ← peek
    let body ← (do statements ((← get).size + 1) [])
    let finish ← peek
    pure ⟨body.reverse, some ⟨start.pos, finish.pos⟩⟩) := rfl

theorem statements_end {s : Input} {t : Token} {rest : List Token} {fuel : Nat}
    {before : List Stmt} (hRest : s.rest = t :: rest) (hKind : t.kind = .endOfInput) :
    statements fuel before s = .ok (before, s) := by
  cases fuel with
  | zero => rfl
  | succ fuel =>
    unfold statements chainUpTo
    simp only [check, bind_assoc, pure_bind]
    rw [bind_ok (peek_cons hRest), hKind]
    rfl

theorem statements_succ {s : Input} {t : Token} {rest : List Token} {fuel : Nat}
    {before : List Stmt} (hRest : s.rest = t :: rest) (hKind : t.kind ≠ .endOfInput) :
    statements (fuel + 1) before s =
      ((level maxNesting).declaration .top >>= fun d => statements fuel (d :: before)) s := by
  unfold statements
  rw [chainUpTo]
  simp only [check, bind_assoc, pure_bind]
  rw [bind_ok (peek_cons hRest), decide_eq_false hKind]
  simp only [Bool.false_eq_true, if_false, pure_bind]

/-- In a comparison that is not open all statements stay side by side, whatever statements the
second run has before them. -/
theorem tracks_statements (hShut : ¬D.isOpen) (before : List Stmt) {fuel fuel' : Nat}
    (hFuel : n < fuel) (hFuel' : n + D.later.length < fuel') :
    D.Tracks (D.Facing False n) (statements fuel []) (statements fuel' before)
      (fun body body' => ∃ front, D.Same body front ∧ body' = front ++ before)
      (D.Facing False n) := by
  refine tracks_chainUpTo (measured_facing False) (J := fun n => D.Facing False (n + 1)) ?_ ?_
    fuel fuel' hFuel hFuel' ⟨[], same_nil, rfl⟩
  · intro n f g post hNone hSome
    simp only [bind_assoc]
    refine tracks_check_bind fun c t _ => tracks_from (fun _ _ h => h.facing) ?_
    cases c with
    | true => simpa using hNone
    | false => simpa using hSome ()
  · rintro n body _ _ ⟨front, hFront, rfl⟩
    refine tracks_bind ((tracks_level maxNesting).declaration .top n) fun s s' hs => ?_
    exact tracks_pure ⟨s' :: front, same_cons hs hFront, rfl⟩
      fun _ _ h => (h.inside hShut).fresh

theorem tracks_program (hShut : ¬D.isOpen) :
    D.Tracks (D.Facing False n) program program (fun p p' => D.Same p.body p'.body)
      (D.Facing False n) := by
  rw [program_eq]
  refine tracks_peek_bind fun start start' _ => tracks_from (fun _ _ h => h.facing) ?_
  have hBody : D.Tracks (D.Facing False n) (do statements ((← get).size + 1) [])
      (do statements ((← get).size + 1) [])
      (fun body body' => ∃ front, D.Same body front ∧ body' = front ++ []) (D.Facing False n) := by
    intro s u hPre
    have hSize := (measured_facing False).right_size hPre
    exact tracks_mono (tracks_statements hShut [] (Nat.lt_succ_of_le hPre.left_size)
      (Nat.lt_succ_of_le hSize)) (fun _ _ h => h)
      (fun _ _ h => (measured_facing False).mono hPre.le h) (fun _ _ h => h) s u
      ((measured_facing False).tight hPre)
  refine tracks_bind hBody fun body body' hBody => ?_
  obtain ⟨front, hFront, rfl⟩ := hBody
  rw [List.append_nil]
  refine tracks_peek_bind fun finish finish' _ => ?_
  exact tracks_pure (same_reverse hFront) fun _ _ h => h.facing

theorem Rows.kind_ne {t : Token} {rest ts ts' : List Token} (hOpen : D.isOpen)
    (h : D.Rows ts ts') (hRow : ts = t :: rest) : t.kind ≠ .endOfInput := by
  cases h with
  | shut hShut => exact absurd hOpen hShut
  | last _ hCloses =>
    obtain ⟨rfl, -⟩ := List.cons.inj hRow
    intro hEnd
    rw [hEnd] at hCloses
    cases hCloses
  | cons hKind =>
    obtain ⟨rfl, -⟩ := List.cons.inj hRow
    exact hKind

/-- In an open comparison a run of all statements leads past the end, and the second run goes on
there, with the same statements. -/
theorem statements_past (hOpen : D.isOpen) {fuel fuel' : Nat} {before before' body : List Stmt}
    {s u s' : Input} (hFacing : D.Facing False n s u) (hFuel : n < fuel)
    (hFuel' : n + D.later.length < fuel') (hBefore : D.Same before before')
    (hRun : statements fuel before s = .ok (body, s')) :
    ∃ more body' u', statements fuel' before' u = statements more body' u' ∧
      D.Same body body' ∧ D.Past n s' u' ∧ D.later.length + 1 < more := by
  induction n generalizing fuel fuel' before before' s u with
  | zero => exact absurd (Nat.lt_of_lt_of_le hFacing.pos hFacing.le) (Nat.lt_irrefl 0)
  | succ n ih =>
    obtain ⟨fuel, rfl⟩ := Nat.exists_eq_add_one_of_ne_zero (Nat.ne_zero_of_lt hFuel)
    obtain ⟨fuel', rfl⟩ := Nat.exists_eq_add_one_of_ne_zero (Nat.ne_zero_of_lt hFuel')
    obtain ⟨t, t', ts, ts', hLeft, hRight, hLike⟩ := hFacing.rows.exists_cons
    have hKind := hFacing.rows.kind_ne hOpen hLeft
    rw [statements_succ hLeft hKind] at hRun
    rw [statements_succ hRight (kind_eq hLike ▸ hKind)]
    obtain ⟨d, s₁, hStep, hLater⟩ := exists_of_bind hRun
    have hOutcome := (tracks_level maxNesting).declaration .top n s u hFacing
    rw [hStep] at hOutcome
    generalize hStep' : (level maxNesting).declaration .top u = y at hOutcome
    cases hOutcome with
    | @done _ d' _ u₁ hSame hPost =>
      rw [bind_ok hStep']
      have hBoth := same_cons hSame hBefore
      have hEnough : n + D.later.length < fuel' := by omega
      rcases hPost with hInside | hPast
      · obtain ⟨more, body', u', hGo, hBody, hEnd, hMore⟩ :=
          ih hInside.fresh (by omega) hEnough hBoth hLater
        refine ⟨more, body', u', hGo, hBody, ?_, hMore⟩
        exact { hEnd with le := Nat.le_succ_of_le hEnd.le }
      · rw [statements_end hPast.left_rest D.ending] at hLater
        cases hLater
        have hPos : 0 < n := Nat.lt_of_lt_of_le (by rw [hPast.left_rest]; exact Nat.one_pos) hPast.le
        exact ⟨fuel', _, u₁, rfl, hBoth, { hPast with le := Nat.le_succ_of_le hPast.le }, by omega⟩

end Comparison

end Tern
