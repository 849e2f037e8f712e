import Tern.Proofs.Grammar.Postcondition
import Tern.Proofs.Syntax.Placement
import Tern.Proofs.Syntax.Tree

/-!
# Parsed programs are placed

Every parser of the grammar is told in which surroundings it reads and puts no construct where
it may not stand. What it reads comes from the tokens: a node runs from one token to another, and
a number literal has the value of a number token. The proof goes through the grammar once; where
the grammar runs in a circle it uses what is known of the level further in.

* `Node.Grown`: a tree that is placed and comes from tokens;
* `Grammar.grown_level`: the parsers of every level yield such trees;
* `Program.grown_of_stream`, `Program.placed_of_parse`: so a parsed program is one.
-/

namespace Tern

namespace Node

/-- What tokens leave behind in a node: its span runs from one of them to another, and a number
literal has the value of one. -/
structure Origin (T : Token → Prop) (n : Node) : Prop where
  span : ∃ t u, T t ∧ T u ∧ (n.span = some ⟨t.pos, u.stop⟩ ∨ n.span = some ⟨t.pos, u.pos⟩)
  number : ∀ x s, n = .expr (.number x s) →
    ∃ t, T t ∧ t.kind = .number ∧ x = Grammar.numberValue t

/-- A tree of which every node is allowed where it stands and comes from tokens. -/
inductive Grown (T : Token → Prop) : Context → Node → Prop where
  | mk {ctx : Context} {n : Node} (allowed : n.Allowed ctx) (origin : n.Origin T)
      (below : ∀ q ∈ n.parts ctx, Grown T q.1 q.2) : Grown T ctx n

variable {T : Token → Prop} {ctx : Context} {n : Node}

theorem Grown.placed (h : Grown T ctx n) : Placed ctx n := by
  induction h with
  | mk allowed _ _ ih => exact placed_iff.mpr ⟨allowed, ih⟩

/-- The parts of a node are its children, whatever the surroundings. -/
theorem exists_part {c : Node} (ctx : Context) (hc : c ∈ n.children) :
    ∃ ctx', (ctx', c) ∈ n.parts ctx := by
  rw [← map_snd_parts ctx n] at hc
  obtain ⟨q, hq, rfl⟩ := List.mem_map.mp hc
  exact ⟨q.1, hq⟩

theorem Grown.all (h : Grown T ctx n) : All (Origin T) n := by
  induction h with
  | @mk ctx n _ origin _ ih =>
    refine .mk origin fun c hc => ?_
    obtain ⟨ctx', hPart⟩ := exists_part ctx hc
    exact ih (ctx', c) hPart

end Node

open Node (Grown Origin)

namespace Grammar

open Tern.Parser

variable {T : Token → Prop}

/-- The parsers of a level yield trees that are placed and come from tokens. -/
structure GrownLevel (T : Token → Prop) (l : Level) : Prop where
  expression : ∀ ctx, Yields T (l.expression ctx) fun e => Grown T ctx (.expr e)
  operand : ∀ ctx, Yields T (l.operand ctx) fun e => Grown T ctx (.expr e)
  declaration : ∀ ctx, Yields T (l.declaration ctx) fun s => Grown T ctx (.stmt s)

/-! ## Trees from their parts -/

/-- Nothing but a number literal has the value of a token. -/
theorem origin_of {start : Token} {n : Node} (hStart : T start)
    (hSpan : T start → ∃ u, T u ∧ n.span = some ⟨start.pos, u.stop⟩)
    (hOther : ∀ x s, n ≠ .expr (.number x s)) : n.Origin T := by
  obtain ⟨u, hu, hSpan⟩ := hSpan hStart
  exact ⟨⟨start, u, hStart, hu, .inl hSpan⟩, fun x s hn => absurd hn (hOther x s)⟩

/-- A node without parts. -/
theorem grown_leaf {ctx : Context} {n : Node} (hAllowed : n.Allowed ctx) (hOrigin : n.Origin T)
    (hParts : n.parts ctx = []) : Grown T ctx n :=
  .mk hAllowed hOrigin (by simp [hParts])

/-- A node whose parts stand where it stands itself. -/
theorem grown_same {ctx : Context} {n : Node} (hAllowed : n.Allowed ctx) (hOrigin : n.Origin T)
    (hSame : n.parts ctx = n.children.map (ctx, ·)) (hParts : ∀ c ∈ n.children, Grown T ctx c) :
    Grown T ctx n := by
  refine .mk hAllowed hOrigin ?_
  rw [hSame]
  intro q hq
  obtain ⟨c, hc, rfl⟩ := List.mem_map.mp hq
  exact hParts c hc

theorem grown_children {ctx : Context} {n : Node} (h : Grown T ctx n)
    (hSame : n.parts ctx = n.children.map (ctx, ·)) : ∀ c ∈ n.children, Grown T ctx c := by
  obtain ⟨-, -, below⟩ := h
  intro c hc
  refine below (ctx, c) ?_
  rw [hSame]
  exact List.mem_map_of_mem hc

theorem grown_expr {ctx : Context} {e : Expr} (hAllowed : (Node.expr e).Allowed ctx)
    (hOrigin : (Node.expr e).Origin T) (hParts : ∀ c ∈ Node.ofExpr e, Grown T ctx c) :
    Grown T ctx (.expr e) :=
  grown_same hAllowed hOrigin rfl hParts

/-- A block is placed where all its statements are. -/
theorem grown_block {ctx : Context} {b : Block} (hOrigin : (Node.block b).Origin T)
    (h : ∀ s ∈ b.body, Grown T ctx (.stmt s)) : Grown T ctx (.block b) := by
  refine grown_same trivial hOrigin rfl ?_
  intro c hc
  obtain ⟨s, hs, rfl⟩ := List.mem_map.mp hc
  exact h s hs

section

variable [Token.Lasting T]

/-- An identifier may stand anywhere. -/
theorem yields_name (wanted : String) :
    Yields T (ident wanted) fun id => ∀ ctx, Grown T ctx (.ident id) := by
  refine yields_mono (yields_ident wanted) ?_
  rintro id ⟨t, u, hKind, ht, hu, rfl⟩ ctx
  have hName : Node.isName t.lexeme := Token.Lasting.spelled t ht hKind
  exact grown_leaf hName (origin_of ht (fun _ => ⟨u, hu, rfl⟩) nofun) rfl

/-! ## Expressions -/

section

variable {inner : Level} (hInner : GrownLevel T inner) (ctx : Context)
include hInner

theorem yields_items (close : TokenKind) :
    Yields T (commaSeparated close fun _ => inner.expression ctx)
      fun es => ∀ e ∈ es, Grown T ctx (.expr e) := by
  refine yields_mono (yields_commaSeparated (L := fun es => ∀ e ∈ es, Grown T ctx (.expr e))
    (by simp) ?_) ?_
  · intro before hBefore
    exact yields_mono (hInner.expression ctx) fun e he => List.forall_mem_cons.mpr ⟨he, hBefore⟩
  · intro es hes e he
    exact hes e (List.mem_reverse.mpr he)

theorem yields_grouped : Yields T (grouped inner ctx) fun e => Grown T ctx (.expr e) :=
  yields_bind (hInner.expression ctx) fun _ he =>
    yields_bind (yields_expect _ _) fun _ _ => yields_pure he

theorem yields_arrayExpr {t : Token} (ht : T t) :
    Yields T (arrayExpr inner ctx t) fun e => Grown T ctx (.expr e) := by
  refine yields_bind (yields_items hInner ctx _) fun es hes => ?_
  refine yields_bind (yields_expect _ _) fun _ _ => ?_
  refine yields_bind (yields_spanFrom _) fun span hSpan =>
    yields_pure (grown_expr trivial (origin_of ht hSpan nofun) ?_)
  intro c hc
  obtain ⟨e, he, rfl⟩ := List.mem_map.mp hc
  exact hes e he

omit hInner [Token.Lasting T] in
theorem yields_thisExpr {t : Token} (ht : T t) :
    Yields T (thisExpr ctx t) fun e => Grown T ctx (.expr e) :=
  yields_ite (fun _ => yields_failAt _ _) fun hEnclosing =>
    yields_bind (yields_spanFrom _) fun _ hSpan =>
      yields_pure (grown_leaf hEnclosing (origin_of ht hSpan nofun) rfl)

omit hInner in
theorem yields_superExpr {t : Token} (ht : T t) :
    Yields T (superExpr ctx t) fun e => Grown T ctx (.expr e) := by
  unfold superExpr
  split
  · exact yields_failAt _ _
  · exact yields_failAt _ _
  · next hEnclosing =>
    refine yields_bind (yields_expect _ _) fun _ _ => ?_
    refine yields_bind (yields_name _) fun id hId => ?_
    refine yields_bind (yields_spanFrom _) fun _ hSpan =>
      yields_pure (grown_expr hEnclosing (origin_of ht hSpan nofun) ?_)
    simpa [Node.ofExpr] using hId ctx

omit hInner in
/-- A token taken and a leaf made of it. -/
theorem yields_literal {t : Token} {make : Option Span → Expr}
    (h : ∀ u, T u → Grown T ctx (.expr (make (some ⟨t.pos, u.stop⟩)))) (ht : T t) :
    Yields T (do let _ ← advance; pure (make (← spanFrom t))) fun e => Grown T ctx (.expr e) := by
  refine yields_bind yields_advance fun _ _ => yields_bind (yields_spanFrom _) fun span hSpan => ?_
  obtain ⟨u, hu, rfl⟩ := hSpan ht
  exact yields_pure (h u hu)

theorem yields_primary : Yields T (primary inner ctx) fun e => Grown T ctx (.expr e) := by
  refine yields_bind yields_peek fun t ht => ?_
  split
  · next hKind =>
    refine yields_literal ctx (fun u hu => grown_leaf trivial ⟨⟨t, u, ht, hu, .inl rfl⟩, ?_⟩ rfl) ht
    intro x s hn
    cases hn
    exact ⟨t, ht, hKind, rfl⟩
  · exact yields_literal ctx (fun u hu =>
      grown_leaf trivial (origin_of ht (fun _ => ⟨u, hu, rfl⟩) nofun) rfl) ht
  · exact yields_literal ctx (fun u hu =>
      grown_leaf trivial (origin_of ht (fun _ => ⟨u, hu, rfl⟩) nofun) rfl) ht
  · exact yields_literal ctx (fun u hu =>
      grown_leaf trivial (origin_of ht (fun _ => ⟨u, hu, rfl⟩) nofun) rfl) ht
  · exact yields_literal ctx (fun u hu =>
      grown_leaf trivial (origin_of ht (fun _ => ⟨u, hu, rfl⟩) nofun) rfl) ht
  · exact yields_bind yields_advance fun _ _ => yields_thisExpr ctx ht
  · exact yields_bind yields_advance fun _ _ => yields_superExpr ctx ht
  · next hKind =>
    have hName : Node.isName t.lexeme := Token.Lasting.spelled t ht hKind
    exact yields_literal ctx (fun u hu =>
      grown_leaf hName (origin_of ht (fun _ => ⟨u, hu, rfl⟩) nofun) rfl) ht
  · exact yields_bind yields_advance fun _ _ => yields_grouped hInner ctx
  · exact yields_bind yields_advance fun _ _ => yields_arrayExpr hInner ctx ht
  · exact yields_failAt _ _

/-! ## Calls and operators -/

theorem yields_suffixed {start : Token} (hStart : T start) (e : Expr)
    (he : Grown T ctx (.expr e)) :
    ∀ suffix, Yields T (suffixed inner ctx start e suffix) fun e => Grown T ctx (.expr e)
  | .call => by
    refine yields_bind (yields_items hInner ctx _) fun es hes => ?_
    refine yields_bind (yields_expect _ _) fun _ _ => ?_
    refine yields_bind (yields_spanFrom _) fun _ hSpan =>
      yields_pure (grown_expr trivial (origin_of hStart hSpan nofun) ?_)
    intro c hc
    rcases List.mem_cons.mp hc with rfl | hc
    · exact he
    · obtain ⟨e', he', rfl⟩ := List.mem_map.mp hc
      exact hes e' he'
  | .member => by
    refine yields_bind (yields_name _) fun id hId => ?_
    refine yields_bind (yields_spanFrom _) fun _ hSpan =>
      yields_pure (grown_expr trivial (origin_of hStart hSpan nofun) ?_)
    simpa [Node.ofExpr] using ⟨he, hId ctx⟩
  | .index => by
    refine yields_bind (hInner.expression ctx) fun i hi => ?_
    refine yields_bind (yields_expect _ _) fun _ _ => ?_
    refine yields_bind (yields_spanFrom _) fun _ hSpan =>
      yields_pure (grown_expr trivial (origin_of hStart hSpan nofun) ?_)
    simpa [Node.ofExpr] using ⟨he, hi⟩

theorem yields_call : Yields T (call inner ctx) fun e => Grown T ctx (.expr e) :=
  yields_bind yields_peek fun _ hStart =>
    yields_bind (yields_primary hInner ctx) fun _ he =>
      yields_chain (yields_acceptAs _)
        (fun e suffix he => yields_suffixed hInner ctx hStart e he suffix) he

omit hInner in
theorem yields_leftAssoc {β : Type} {op : TokenKind → Option β}
    {join : β → Expr → Expr → Option Span → Expr} {operand : Parser Expr}
    (hJoin : ∀ b l r span, (Node.expr (join b l r span)).Origin T → Grown T ctx (.expr l) →
      Grown T ctx (.expr r) → Grown T ctx (.expr (join b l r span)))
    (hOther : ∀ b l r span x s, Node.expr (join b l r span) ≠ .expr (.number x s))
    (hSpan : ∀ b l r span, (join b l r span).span = span)
    (hOperand : Yields T operand fun e => Grown T ctx (.expr e)) :
    Yields T (leftAssoc op join operand) fun e => Grown T ctx (.expr e) := by
  refine yields_bind yields_peek fun start hStart => ?_
  refine yields_bind hOperand fun first hFirst => ?_
  refine yields_chain (yields_acceptAs _) (fun l b hl => ?_) hFirst
  refine yields_bind hOperand fun r hr => yields_bind (yields_spanFrom _) fun span hFrom => ?_
  refine yields_pure (hJoin b l r span (origin_of hStart ?_ (hOther b l r span)) hl hr)
  intro hStart
  obtain ⟨u, hu, hSame⟩ := hFrom hStart
  exact ⟨u, hu, (hSpan b l r span).trans hSame⟩

omit hInner [Token.Lasting T] in
theorem grown_binary (op : BinaryOp) (l r : Expr) (span : Option Span)
    (hOrigin : (Node.expr (.binary op l r span)).Origin T) (hl : Grown T ctx (.expr l))
    (hr : Grown T ctx (.expr r)) : Grown T ctx (.expr (.binary op l r span)) :=
  grown_expr trivial hOrigin (by simpa [Node.ofExpr] using ⟨hl, hr⟩)

omit hInner [Token.Lasting T] in
theorem grown_logical (op : LogicalOp) (l r : Expr) (span : Option Span)
    (hOrigin : (Node.expr (.logical op l r span)).Origin T) (hl : Grown T ctx (.expr l))
    (hr : Grown T ctx (.expr r)) : Grown T ctx (.expr (.logical op l r span)) :=
  grown_expr trivial hOrigin (by simpa [Node.ofExpr] using ⟨hl, hr⟩)

theorem yields_unary : Yields T (unary inner ctx) fun e => Grown T ctx (.expr e) := by
  refine yields_bind yields_peek fun t ht => ?_
  split
  · refine yields_bind yields_advance fun _ _ => ?_
    refine yields_bind (hInner.operand ctx) fun e he => ?_
    refine yields_bind (yields_spanFrom _) fun _ hSpan =>
      yields_pure (grown_expr trivial (origin_of ht hSpan nofun) ?_)
    simpa [Node.ofExpr] using he
  · exact yields_call hInner ctx

theorem yields_logicOr : Yields T (logicOr inner ctx) fun e => Grown T ctx (.expr e) := by
  -- from the loosest tier to the tightest
  refine yields_leftAssoc ctx (grown_logical ctx) nofun (fun _ _ _ _ => rfl) ?_
  refine yields_leftAssoc ctx (grown_logical ctx) nofun (fun _ _ _ _ => rfl) ?_
  refine yields_leftAssoc ctx (grown_binary ctx) nofun (fun _ _ _ _ => rfl) ?_
  refine yields_leftAssoc ctx (grown_binary ctx) nofun (fun _ _ _ _ => rfl) ?_
  refine yields_leftAssoc ctx (grown_binary ctx) nofun (fun _ _ _ _ => rfl) ?_
  refine yields_leftAssoc ctx (grown_binary ctx) nofun (fun _ _ _ _ => rfl) ?_
  exact yields_unary hInner ctx

omit hInner [Token.Lasting T] in
/-- A target that is read as an expression keeps its parts when it is assigned to. -/
theorem grown_assignTo {start : Token} {target value e : Expr} {span : Option Span}
    (hStart : T start) (hSpan : T start → ∃ u, T u ∧ span = some ⟨start.pos, u.stop⟩)
    (hTarget : Grown T ctx (.expr target)) (hValue : Grown T ctx (.expr value))
    (h : assignTo? target value span = some e) : Grown T ctx (.expr e) := by
  have hParts := grown_children hTarget rfl
  unfold assignTo? at h
  split at h
  · cases h
    refine grown_expr trivial (origin_of hStart hSpan (by rintro _ _ ⟨⟩)) ?_
    simpa [Node.ofExpr] using ⟨hTarget, hValue⟩
  · cases h
    simp only [Node.children, Node.ofExpr, List.mem_cons, List.not_mem_nil, or_false,
      forall_eq_or_imp, forall_eq] at hParts
    refine grown_expr trivial (origin_of hStart hSpan (by rintro _ _ ⟨⟩)) ?_
    simpa [Node.ofExpr] using ⟨hParts.1, hParts.2, hValue⟩
  · cases h
    simp only [Node.children, Node.ofExpr, List.mem_cons, List.not_mem_nil, or_false,
      forall_eq_or_imp, forall_eq] at hParts
    refine grown_expr trivial (origin_of hStart hSpan (by rintro _ _ ⟨⟩)) ?_
    simpa [Node.ofExpr] using ⟨hParts.1, hParts.2, hValue⟩
  · cases h

theorem yields_assignment : Yields T (assignment inner ctx) fun e => Grown T ctx (.expr e) := by
  refine yields_bind yields_peek fun start hStart => ?_
  refine yields_bind (yields_logicOr hInner ctx) fun target hTarget => ?_
  refine yields_bind (yields_check _) fun _ _ =>
    yields_ite (fun _ => ?_) fun _ => yields_pure hTarget
  refine yields_bind yields_advance fun equals _ => ?_
  refine yields_bind (hInner.expression ctx) fun value hValue => ?_
  refine yields_bind (yields_spanFrom _) fun span hSpan => ?_
  split
  · next e h => exact yields_pure (grown_assignTo ctx hStart hSpan hTarget hValue h)
  · exact yields_failAt _ _

/-! ## Declarations -/

omit hInner in
theorem yields_terminated {α : Type} {P : α → Prop} {a : α} (ha : P a) :
    Yields T (terminated a) P :=
  yields_bind (yields_accept _) fun _ _ => yields_ite (fun _ => yields_pure ha) fun _ =>
    yields_bind yields_atClose fun _ _ => yields_ite (fun _ => yields_pure ha) fun _ =>
      yields_bind yields_peek fun _ _ => yields_failAt _ _

theorem yields_block (what : String) :
    Yields T (block inner ctx what) fun b => Grown T ctx (.block b) := by
  refine yields_bind (yields_expect _ _) fun opening hOpening => ?_
  refine yields_bind (yields_untilClose (hInner.declaration ctx)) fun body hBody => ?_
  refine yields_bind (yields_expect _ _) fun _ _ => ?_
  exact yields_bind (yields_spanFrom _) fun _ hSpan =>
    yields_pure (grown_block (origin_of hOpening.2 hSpan nofun) hBody)

theorem yields_loopBody (what : String) :
    Yields T (loopBody inner ctx what) fun b => Grown T ctx.loop (.block b) :=
  yields_block hInner ctx.loop what

theorem yields_parenthesized (keyword : String) :
    Yields T (parenthesized inner ctx keyword) fun e => Grown T ctx (.expr e) :=
  yields_bind (yields_expect _ _) fun _ _ =>
    yields_bind (hInner.expression ctx) fun _ he =>
      yields_bind (yields_expect _ _) fun _ _ => yields_pure he

/-- Parameters so far, the last one first: names that differ. -/
def FreshParams (T : Token → Prop) (ids : List Ident) : Prop :=
  (∀ id ∈ ids, ∀ ctx, Grown T ctx (.ident id)) ∧ (ids.map (·.name)).Nodup

omit hInner in
theorem yields_param (before : List Ident) (hBefore : FreshParams T before) :
    Yields T (param before) fun id => FreshParams T (id :: before) := by
  refine yields_bind (yields_name _) fun id hId => yields_ite (fun _ => ?_) fun hNew => ?_
  · exact yields_bind yields_previous fun _ _ => yields_failAt _ _
  · have hFresh : id.name ∉ before.map (·.name) := by
      simp only [List.any_eq_true, decide_eq_true_eq, not_exists, not_and] at hNew
      intro hMem
      obtain ⟨other, hOther, hName⟩ := List.mem_map.mp hMem
      exact hNew other hOther hName
    refine yields_pure ⟨List.forall_mem_cons.mpr ⟨hId, hBefore.1⟩, ?_⟩
    exact List.nodup_cons.mpr ⟨hFresh, hBefore.2⟩

omit hInner [Token.Lasting T] in
theorem freshParams_reverse {ids : List Ident} (h : FreshParams T ids.reverse) :
    FreshParams T ids := by
  refine ⟨fun id hId => h.1 id (List.mem_reverse.mpr hId), ?_⟩
  have hNodup := h.2
  rw [List.map_reverse] at hNodup
  exact (List.reverse_perm _).nodup_iff.mp hNodup

theorem yields_funcDef (what : String) :
    Yields T (funcDef inner ctx what) fun f => Grown T ctx (.stmt (.func f)) := by
  refine yields_bind yields_advance fun keyword hKeyword => ?_
  refine yields_bind (yields_name _) fun id hId => ?_
  refine yields_bind (yields_expect _ _) fun _ _ => ?_
  refine yields_bind (yields_commaSeparated ⟨by simp, List.nodup_nil⟩ yields_param) ?_
  intro params hParams
  obtain ⟨hNames, hNodup⟩ := freshParams_reverse hParams
  refine yields_bind (yields_expect _ _) fun _ _ => ?_
  refine yields_bind (yields_block hInner ctx.func _) fun body hBody => ?_
  refine yields_bind (yields_spanFrom _) fun _ hSpan =>
    yields_pure (.mk hNodup (origin_of hKeyword hSpan nofun) ?_)
  simp only [Node.parts, Node.stmtParts, List.map_cons, List.map_map, List.cons_append,
    List.mem_cons, List.mem_append, List.mem_map, List.not_mem_nil, or_false]
  rintro q (rfl | ⟨p, hp, rfl⟩ | rfl)
  · exact hId ctx
  · exact hNames p hp ctx
  · exact hBody

omit hInner in
theorem yields_superclass (id : Ident) :
    Yields T (superclass id) fun parent =>
      ∀ p ∈ parent, (∀ ctx, Grown T ctx (.ident p)) ∧ p.name ≠ id.name := by
  refine yields_bind (yields_accept _) fun _ _ => yields_ite (fun _ => ?_) fun _ => ?_
  · refine yields_bind (yields_name _) fun p hp => yields_ite (fun _ => ?_) fun hNe => ?_
    · exact yields_bind yields_previous fun _ _ => yields_failAt _ _
    · refine yields_pure fun q hq => ?_
      cases hq
      exact ⟨hp, hNe⟩
  · exact yields_pure (by simp)

theorem yields_method : Yields T (method inner ctx) fun f => Grown T ctx (.stmt (.func f)) :=
  yields_bind yields_peek fun _ _ =>
    yields_ite (fun _ => yields_funcDef hInner ctx _) fun _ => yields_failAt _ _

theorem yields_classDef :
    Yields T (classDef inner ctx) fun c => Grown T ctx (.stmt (.cls c)) := by
  refine yields_bind yields_advance fun keyword hKeyword => ?_
  refine yields_bind (yields_name _) fun id hId => ?_
  refine yields_bind (yields_superclass id) fun parent hParent => ?_
  refine yields_bind (yields_expect _ _) fun _ _ => ?_
  refine yields_bind (yields_untilClose (yields_method hInner (ctx.cls parent.isSome))) ?_
  intro methods hMethods
  refine yields_bind (yields_expect _ _) fun _ _ => ?_
  refine yields_bind (yields_spanFrom _) fun _ hSpan =>
    yields_pure (.mk ?_ (origin_of hKeyword hSpan nofun) ?_)
  · exact fun p hp => (hParent p hp).2
  · simp only [Node.parts, Node.stmtParts, List.map_cons, List.cons_append, List.mem_cons,
      List.mem_append, List.mem_map, Option.mem_toList, Option.map_eq_some_iff]
    rintro q (rfl | ⟨n, ⟨p, hp, rfl⟩, rfl⟩ | ⟨f, hf, rfl⟩)
    · exact hId ctx
    · exact (hParent p hp).1 ctx
    · exact hMethods f hf

/-! ## Simple statements -/

omit hInner [Token.Lasting T] in
theorem grown_simple {s : Simple} (hOrigin : (Node.stmt (.simple s)).Origin T)
    (h : ∀ c ∈ Node.ofSimple s, Grown T ctx c) : Grown T ctx (.stmt (.simple s)) :=
  grown_same trivial hOrigin rfl h

theorem yields_varDecl :
    Yields T (varDecl inner ctx) fun s => Grown T ctx (.stmt (.simple s)) := by
  refine yields_bind yields_advance fun keyword hKeyword => ?_
  refine yields_bind (yields_name _) fun id hId => ?_
  refine yields_bind (yields_accept _) fun _ _ => ?_
  have hRest : ∀ value : Option Expr, (∀ e ∈ value, Grown T ctx (.expr e)) →
      Yields T (do pure (Simple.var id value (← spanFrom keyword)))
        fun s => Grown T ctx (.stmt (.simple s)) := by
    intro value hValue
    refine yields_bind (yields_spanFrom _) fun _ hSpan =>
      yields_pure (grown_simple ctx (origin_of hKeyword hSpan nofun) ?_)
    simp only [Node.ofSimple, List.mem_cons, Option.mem_toList, Option.map_eq_some_iff]
    rintro c (rfl | ⟨e, he, rfl⟩)
    · exact hId ctx
    · exact hValue e he
  refine yields_ite (fun _ => yields_bind (yields_map ?_) hRest) fun _ =>
    yields_bind (yields_pure (by simp)) hRest
  exact yields_mono (hInner.expression ctx) fun e he => by simpa using he

theorem yields_constDecl :
    Yields T (constDecl inner ctx) fun s => Grown T ctx (.stmt (.simple s)) := by
  refine yields_bind yields_advance fun keyword hKeyword => ?_
  refine yields_bind (yields_name _) fun id hId => ?_
  refine yields_bind (yields_expect _ _) fun _ _ => ?_
  refine yields_bind (hInner.expression ctx) fun value hValue => ?_
  refine yields_bind (yields_spanFrom _) fun _ hSpan =>
    yields_pure (grown_simple ctx (origin_of hKeyword hSpan nofun) ?_)
  simpa [Node.ofSimple] using ⟨hId ctx, hValue⟩

theorem yields_exprStmt :
    Yields T (exprStmt inner ctx) fun s => Grown T ctx (.stmt (.simple s)) := by
  refine yields_bind yields_peek fun start hStart => ?_
  refine yields_bind (hInner.expression ctx) fun e he => ?_
  refine yields_bind (yields_spanFrom _) fun _ hSpan =>
    yields_pure (grown_simple ctx (origin_of hStart hSpan nofun) ?_)
  simpa [Node.ofSimple] using he

/-! ## Control flow -/

theorem yields_elifClause :
    Yields T (elifClause inner ctx) fun c => Grown T ctx (.elif c) := by
  refine yields_bind yields_advance fun keyword hKeyword => ?_
  refine yields_bind (yields_parenthesized hInner ctx _) fun condition hCondition => ?_
  refine yields_bind (yields_block hInner ctx _) fun body hBody => ?_
  refine yields_bind (yields_spanFrom _) fun _ hSpan =>
    yields_pure (grown_same trivial (origin_of hKeyword hSpan nofun) rfl ?_)
  simpa [Node.children] using ⟨hCondition, hBody⟩

theorem yields_elifClauses :
    Yields T (elifClauses inner ctx) fun cs => ∀ c ∈ cs, Grown T ctx (.elif c) := by
  have hMore : Yields T (do if ← check .kwElif then pure (some ()) else pure none :
      Parser (Option Unit)) fun _ => True :=
    yields_bind (yields_check _) fun _ _ =>
      yields_ite (fun _ => yields_pure trivial) fun _ => yields_pure trivial
  refine yields_bind (yields_gather (L := fun cs => ∀ c ∈ cs, Grown T ctx (.elif c)) hMore
    (fun before hBefore => ?_) (by simp)) ?_
  · exact yields_mono (yields_elifClause hInner ctx) fun c hc =>
      List.forall_mem_cons.mpr ⟨hc, hBefore⟩
  · exact fun cs hcs => yields_pure fun c hc => hcs c (List.mem_reverse.mp hc)

theorem yields_ifStmt : Yields T (ifStmt inner ctx) fun s => Grown T ctx (.stmt s) := by
  refine yields_bind yields_advance fun keyword hKeyword => ?_
  refine yields_bind (yields_parenthesized hInner ctx _) fun condition hCondition => ?_
  refine yields_bind (yields_block hInner ctx _) fun body hBody => ?_
  refine yields_bind (yields_elifClauses hInner ctx) fun elifs hElifs => ?_
  refine yields_bind (yields_accept _) fun _ _ => ?_
  have hRest : ∀ otherwise : Option Block, (∀ b ∈ otherwise, Grown T ctx (.block b)) →
      Yields T (do pure (Stmt.ifElse condition body elifs otherwise (← spanFrom keyword)))
        fun s => Grown T ctx (.stmt s) := by
    intro otherwise hOtherwise
    refine yields_bind (yields_spanFrom _) fun _ hSpan =>
      yields_pure (grown_same trivial (origin_of hKeyword hSpan nofun) rfl ?_)
    simp only [Node.children, Node.ofStmt, List.cons_append, List.mem_cons, List.mem_append,
      List.mem_map, Option.mem_toList, Option.map_eq_some_iff]
    rintro c (rfl | rfl | ⟨e, he, rfl⟩ | ⟨b, hb, rfl⟩)
    · exact hCondition
    · exact hBody
    · exact hElifs e he
    · exact hOtherwise b hb
  refine yields_ite (fun _ => yields_bind (yields_map ?_) hRest) fun _ =>
    yields_bind (yields_pure (by simp)) hRest
  exact yields_mono (yields_block hInner ctx _) fun b hb => by simpa using hb

theorem yields_whileStmt : Yields T (whileStmt inner ctx) fun s => Grown T ctx (.stmt s) := by
  refine yields_bind yields_advance fun keyword hKeyword => ?_
  refine yields_bind (yields_parenthesized hInner ctx _) fun condition hCondition => ?_
  refine yields_bind (yields_loopBody hInner ctx _) fun body hBody => ?_
  refine yields_bind (yields_spanFrom _) fun _ hSpan =>
    yields_pure (.mk trivial (origin_of hKeyword hSpan nofun) ?_)
  simpa [Node.parts, Node.stmtParts] using ⟨hCondition, hBody⟩

theorem yields_forStart :
    Yields T (forStart inner ctx) fun start => ∀ s ∈ start, Grown T ctx (.stmt (.simple s)) := by
  have hSome : ∀ {p : Parser Simple}, (Yields T p fun s => Grown T ctx (.stmt (.simple s))) →
      Yields T (some <$> p) fun start => ∀ s ∈ start, Grown T ctx (.stmt (.simple s)) :=
    fun hp => yields_map (yields_mono hp fun s hs => by simpa using hs)
  refine yields_bind yields_peek fun t _ => ?_
  split
  · exact hSome (yields_varDecl hInner ctx)
  · exact hSome (yields_constDecl hInner ctx)
  · exact yields_pure (by simp)
  · exact hSome (yields_exprStmt hInner ctx)

theorem yields_optionalBefore (close : TokenKind) :
    Yields T (optionalBefore inner ctx close) fun e => ∀ e' ∈ e, Grown T ctx (.expr e') := by
  refine yields_bind (yields_check _) fun _ _ =>
    yields_ite (fun _ => yields_pure (by simp)) fun _ => yields_map ?_
  exact yields_mono (hInner.expression ctx) fun e he => by simpa using he

theorem yields_forStmt : Yields T (forStmt inner ctx) fun s => Grown T ctx (.stmt s) := by
  refine yields_bind yields_advance fun keyword hKeyword => ?_
  refine yields_bind (yields_expect _ _) fun _ _ => ?_
  refine yields_bind (yields_forStart hInner ctx) fun start hStart => ?_
  refine yields_bind (yields_expect _ _) fun _ _ => ?_
  refine yields_bind (yields_optionalBefore hInner ctx _) fun condition hCondition => ?_
  refine yields_bind (yields_expect _ _) fun _ _ => ?_
  refine yields_bind (yields_optionalBefore hInner ctx _) fun update hUpdate => ?_
  refine yields_bind (yields_expect _ _) fun _ _ => ?_
  refine yields_bind (yields_loopBody hInner ctx _) fun body hBody => ?_
  refine yields_bind (yields_spanFrom _) fun _ hSpan =>
    yields_pure (.mk trivial (origin_of hKeyword hSpan nofun) ?_)
  simp only [Node.parts, Node.stmtParts, List.map_append, List.mem_append, List.mem_map,
    Option.mem_toList, Option.map_eq_some_iff, List.mem_singleton]
  rintro q (((⟨n, ⟨s, hs, rfl⟩, rfl⟩ | ⟨n, ⟨e, he, rfl⟩, rfl⟩) | ⟨n, ⟨e, he, rfl⟩, rfl⟩) | rfl)
  · exact hStart s hs
  · exact hCondition e he
  · exact hUpdate e he
  · exact hBody

omit hInner in
/-- A jump that needs something around it, which the parser has looked for. -/
theorem yields_jump {needed : Bool} {cause : ParseCause} {make : Option Span → Stmt}
    (hAllowed : needed = true → ∀ span, (Node.stmt (make span)).Allowed ctx)
    (hParts : ∀ span, (Node.stmt (make span)).parts ctx = [])
    (hSpan : ∀ span, (make span).span = span) :
    Yields T (do
      let keyword ← advance
      if needed then terminated (make (← spanFrom keyword)) else failAt keyword cause)
      fun s => Grown T ctx (.stmt s) := by
  refine yields_bind yields_advance fun keyword hKeyword => ?_
  refine yields_ite (fun hNeeded => ?_) fun _ => yields_failAt _ _
  refine yields_bind (yields_spanFrom _) fun span hFrom =>
    yields_terminated
      (grown_leaf (hAllowed hNeeded span) (origin_of hKeyword ?_ nofun) (hParts span))
  intro hStart
  obtain ⟨u, hu, hSame⟩ := hFrom hStart
  exact ⟨u, hu, (hSpan span).trans hSame⟩

omit hInner in
theorem yields_breakStmt : Yields T (breakStmt ctx) fun s => Grown T ctx (.stmt s) :=
  yields_jump ctx (fun h _ => h) (fun _ => rfl) fun _ => rfl

omit hInner in
theorem yields_continueStmt : Yields T (continueStmt ctx) fun s => Grown T ctx (.stmt s) :=
  yields_jump ctx (fun h _ => h) (fun _ => rfl) fun _ => rfl

theorem yields_returnValue :
    Yields T (returnValue inner ctx) fun e => ∀ e' ∈ e, Grown T ctx (.expr e') := by
  refine yields_bind (yields_check _) fun _ _ =>
    yields_ite (fun _ => yields_pure (by simp)) fun _ => ?_
  refine yields_bind yields_atClose fun _ _ =>
    yields_ite (fun _ => yields_pure (by simp)) fun _ => yields_map ?_
  exact yields_mono (hInner.expression ctx) fun e he => by simpa using he

theorem yields_returnStmt : Yields T (returnStmt inner ctx) fun s => Grown T ctx (.stmt s) := by
  refine yields_bind yields_advance fun keyword hKeyword => ?_
  refine yields_ite (fun hFunction => ?_) fun _ => yields_failAt _ _
  refine yields_bind (yields_returnValue hInner ctx) fun argument hArgument => ?_
  refine yields_bind (yields_spanFrom _) fun _ hSpan =>
    yields_terminated (grown_same hFunction (origin_of hKeyword hSpan nofun) rfl ?_)
  simp only [Node.children, Node.ofStmt, Option.mem_toList, Option.map_eq_some_iff]
  rintro c ⟨e, he, rfl⟩
  exact hArgument e he

theorem yields_tryStmt : Yields T (tryStmt inner ctx) fun s => Grown T ctx (.stmt s) := by
  refine yields_bind yields_advance fun keyword hKeyword => ?_
  refine yields_bind (yields_block hInner ctx _) fun body hBody => ?_
  refine yields_bind (yields_expect _ _) fun _ _ => ?_
  refine yields_bind (yields_expect _ _) fun _ _ => ?_
  refine yields_bind (yields_name _) fun id hId => ?_
  refine yields_bind (yields_expect _ _) fun _ _ => ?_
  refine yields_bind (yields_block hInner ctx _) fun handler hHandler => ?_
  refine yields_bind (yields_spanFrom _) fun _ hSpan =>
    yields_pure (grown_same trivial (origin_of hKeyword hSpan nofun) rfl ?_)
  simpa [Node.children, Node.ofStmt] using ⟨hBody, hId ctx, hHandler⟩

theorem yields_throwStmt : Yields T (throwStmt inner ctx) fun s => Grown T ctx (.stmt s) := by
  refine yields_bind yields_advance fun keyword hKeyword => ?_
  refine yields_bind (hInner.expression ctx) fun e he => ?_
  refine yields_bind (yields_spanFrom _) fun _ hSpan =>
    yields_terminated (grown_same trivial (origin_of hKeyword hSpan nofun) rfl ?_)
  simpa [Node.children, Node.ofStmt] using he

theorem yields_declaration : Yields T (declaration inner ctx) fun s => Grown T ctx (.stmt s) := by
  refine yields_bind yields_peek fun t _ => ?_
  split
  · exact yields_map (yields_classDef hInner ctx)
  · exact yields_map (yields_funcDef hInner ctx _)
  · exact yields_bind (yields_varDecl hInner ctx) fun _ hs => yields_terminated hs
  · exact yields_bind (yields_constDecl hInner ctx) fun _ hs => yields_terminated hs
  · exact yields_ifStmt hInner ctx
  · exact yields_whileStmt hInner ctx
  · exact yields_forStmt hInner ctx
  · exact yields_breakStmt ctx
  · exact yields_continueStmt ctx
  · exact yields_returnStmt hInner ctx
  · exact yields_tryStmt hInner ctx
  · exact yields_throwStmt hInner ctx
  · exact yields_map (yields_block hInner ctx _)
  · exact yields_bind (yields_exprStmt hInner ctx) fun _ hs => yields_terminated hs

end

/-! ## Levels and programs -/

theorem yields_tooNested {α : Type} {P : α → Prop} : Yields T tooNested P :=
  yields_bind yields_peek fun _ _ => yields_failAt _ _

/-- The parsers of every level yield placed trees. -/
theorem grown_level : ∀ room, GrownLevel T (level room)
  | 0 => ⟨fun _ => yields_tooNested, fun _ => yields_tooNested, fun _ => yields_tooNested⟩
  | room + 1 =>
    ⟨yields_assignment (grown_level room), yields_unary (grown_level room),
      yields_declaration (grown_level room)⟩

theorem yields_program : Yields T program fun p => Grown T .top (.program p) := by
  refine yields_bind yields_peek fun start hStart => ?_
  have hMore : Yields T (do if ← check .endOfInput then pure none else pure (some ()) :
      Parser (Option Unit)) fun _ => True :=
    yields_bind (yields_check _) fun _ _ =>
      yields_ite (fun _ => yields_pure trivial) fun _ => yields_pure trivial
  refine yields_bind (yields_gather (L := fun body => ∀ s ∈ body, Grown T .top (.stmt s)) hMore
    (fun before hBefore => ?_) (by simp)) fun body hBody => ?_
  · exact yields_mono ((grown_level maxNesting).declaration .top) fun s hs =>
      List.forall_mem_cons.mpr ⟨hs, hBefore⟩
  · refine yields_bind yields_peek fun finish hFinish => yields_pure (grown_same trivial ?_ rfl ?_)
    · exact ⟨⟨start, finish, hStart, hFinish, .inr rfl⟩, nofun⟩
    · intro c hc
      obtain ⟨s, hs, rfl⟩ := List.mem_map.mp hc
      exact hBody s (List.mem_reverse.mp hs)

end

end Grammar

namespace Program

variable {T : Token → Prop}

/-- Tokens form placed programs only, which come from them. -/
theorem grown_of_stream [Token.Lasting T] {stream : TokenStream} {p : Program}
    (hTokens : ∀ t ∈ stream.tokens, T t) (h : ofStream? stream = .ok p) :
    Grown T .top (.program p) := by
  unfold ofStream? at h
  cases hRun : Grammar.program (Input.ofStream stream) with
  | error e => rw [hRun] at h; cases h
  | ok q =>
    rw [hRun] at h
    cases h
    have hEach : (Input.ofStream stream).Each T := ⟨hTokens, fun _ h => by cases h⟩
    exact (Grammar.yields_program (Input.ofStream stream) q.1 q.2 hEach hRun).1

/-- Tokens whose identifiers are names form placed programs only. -/
theorem placed_of_stream {stream : TokenStream} {p : Program}
    (hSpelled : ∀ t ∈ stream.tokens, t.Spelled) (h : ofStream? stream = .ok p) :
    Node.Placed .top (.program p) :=
  (grown_of_stream hSpelled h).placed

/-- A parsed program is placed. -/
theorem placed_of_parse {source : String} {p : Program} (h : parse? source = .ok p) :
    Node.Placed .top (.program p) :=
  placed_of_stream (TokenStream.spelled_ofSource source) h

end Program

/-- Reading a source, given its tokens. -/
theorem Program.exists_of_tokens {source : String} (stream : TokenStream)
    (hTokens : TokenStream.ofSource source = stream)
    (hRead : (Program.ofStream? stream).toOption.isSome = true) :
    ∃ p, Program.parse? source = .ok p := by
  unfold Program.parse?
  rw [hTokens]
  cases h : Program.ofStream? stream with
  | ok p => exact ⟨p, rfl⟩
  | error e =>
    rw [h] at hRead
    cases hRead

end Tern
