import Tern.Proofs.Grammar.Completing
import Tern.Proofs.Grammar.Form

/-!
# Parsers are sound

Whatever a parser takes, the grammar relates to its result: each parser of the tower stays within
the form of the same name. And where a parser that is held to it stops early, what it has read can
be completed to something of that form, so long as the parsers one level further in are held to it.

* `Grammar.SoundLevel`, `Grammar.CompletesLevel`: the parsers of a level stay within forms, and
  complete what they read;
* `Grammar.completes_declaration`: so do the parsers one level further out;
* `Grammar.level_sound`: the levels of the parser stay within the levels of the grammar;
* `Program.whole_of_stream`: the terminals of a stream spell the program that is parsed from it.
-/

namespace Tern

open Terminal (first isMark)

namespace Grammar

open Tern.Parser Form

/-- The parsers of a level stay within forms. -/
structure SoundLevel (l : Level) (g : Forms) : Prop where
  expression : ∀ ctx f, Takes f (l.expression ctx) fun xs _ e => g.expression ctx xs e
  operand : ∀ ctx f, Takes f (l.operand ctx) fun xs _ e => g.operand ctx xs e
  declaration : ∀ ctx f, Takes f (l.declaration ctx) (g.declaration ctx)

/-- The parsers of a level stay within forms, and complete what they read if they are held to it.
They are held to it for declarations only where something is ahead, and what closes a row of them
must not matter. -/
structure CompletesLevel (held : Prop) (l : Level) (g : Forms) : Prop where
  expression : ∀ ctx f,
    Completes held False f (l.expression ctx) fun xs _ e => g.expression ctx xs e
  operand : ∀ ctx f, Completes held False f (l.operand ctx) fun xs _ e => g.operand ctx xs e
  declaration : ∀ ctx f, (held → f.kind ≠ .endOfInput) →
    Completes held False f (l.declaration ctx) (g.declaration ctx)
  closes : held → ∀ ctx xs n n' s, g.declaration ctx xs n s → Closes n' →
    g.declaration ctx xs n' s

variable {held late : Prop} {l : Level} {g : Forms} {ctx : Context} {f : Terminal}

/-- Parsers that stay within forms are not held to anything. -/
theorem SoundLevel.completes (h : SoundLevel l g) : CompletesLevel False l g where
  expression ctx f := completes_of_takes id (h.expression ctx f)
  operand ctx f := completes_of_takes id (h.operand ctx f)
  declaration ctx f _ := completes_of_takes id (h.declaration ctx f)
  closes := False.elim

/-! ## Lists -/

section

variable {α : Type}

theorem completes_commaSeparated {close : TokenKind} {item : List α → Parser α}
    {form : List Terminal → α → Prop} {L : List α → Prop} (hNil : L [])
    (hItem : ∀ before, L before → ∀ f,
      Completes held False f (item before) fun xs _ a => form xs a ∧ L (a :: before)) :
    Completes held False f (commaSeparated close item) fun xs _ as =>
      Listed form xs as ∧ L as.reverse := by
  refine completes_check_bind fun b _ => completes_ite (fun _ => completes_pure ⟨.nil, hNil⟩)
    fun _ => ?_
  refine completes_bind (hItem [] hNil f) fun a xs n ha => ?_
  refine completes_bind (completes_chain (I := fun ys _ items =>
    ∃ as, items = (a :: as).reverse ∧ AfterCommas form ys as ∧ L items) ?_ ?_) ?_
  · rintro ys f items ⟨as, rfl, hRest, hL⟩
    refine completes_accept_bind (by decide) (fun _ n => ?_) fun _ => ?_
    · refine completes_pure ⟨nofun, fun b _ => ?_⟩
      refine completes_bind (hItem _ hL n) fun a' zs m ha' => completes_pure ?_
      refine ⟨as ++ [a'], by simp, ?_, ha'.2⟩
      simpa using hRest.snoc ha'.1
    · exact completes_pure ⟨fun _ => ⟨rfl, rfl⟩, nofun⟩
  · exact ⟨[], rfl, .nil, ha.2⟩
  · rintro items ys m ⟨as, rfl, hRest, hL⟩
    refine completes_pure ?_
    simpa using And.intro (Listed.cons ha.1 hRest) (by simpa using hL)

theorem completes_untilClose {item : Parser α} {form : List Terminal → Terminal → α → Prop}
    (hItem : ∀ f, (held → f.kind ≠ .endOfInput) → Completes held False f item form) :
    Completes held False f (untilClose item) (Series form) := by
  refine completes_bind
    (completes_chain (I := fun xs n items => Series form xs n items.reverse) ?_ .nil) ?_
  · intro xs f items hItems
    refine completes_atClose_bind fun b hb => completes_ite (fun _ => ?_) fun hOpen => ?_
    · exact completes_pure ⟨fun _ => ⟨rfl, rfl⟩, nofun⟩
    · have hSome : held → f.kind ≠ .endOfInput := fun _ hEnd => hOpen (hb.mpr (.inr hEnd))
      refine completes_pure ⟨nofun, fun _ _ => ?_⟩
      refine completes_bind (completes_first hSome (hItem f hSome)) fun a ys n ha =>
        completes_pure ?_
      obtain ⟨ha, rfl⟩ := ha
      simpa using hItems.snoc ha
  · intro items xs n hItems
    exact completes_pure (by simpa using hItems)

end

/-! ## Expressions -/

theorem completes_expressions (hInner : CompletesLevel held l g) (close : TokenKind) :
    Completes held False f (commaSeparated close fun _ => l.expression ctx) fun xs _ es =>
      Listed (g.expression ctx) xs es :=
  completes_mono (completes_commaSeparated (L := fun _ => True) trivial fun _ _ f =>
    completes_mono (hInner.expression ctx f) fun _ _ _ he => ⟨he, trivial⟩) fun _ _ _ h => h.1

/-- Where nothing is ahead a name will do. -/
theorem completes_missing {t : Token} {cause : ParseCause} {R : List Terminal → Expr → Prop}
    (ht : t.terminal = f) (hName : ∀ id : Ident, R [.name id.name] (.name id)) :
    Completes held late f (failAt t cause) fun xs _ e => R xs e := by
  refine completes_wanted ht fun _ _ => ?_
  obtain ⟨w, -, hWritten⟩ := Terminal.exists_name []
  exact ⟨[.name w], .name ⟨w, none⟩, List.forall_mem_singleton.mpr hWritten, hName ⟨w, none⟩⟩

theorem completes_primary (hInner : CompletesLevel held l g) :
    Completes held False f (primary l ctx) fun xs _ e => Primary g ctx xs e := by
  refine completes_peek_bind fun t ht => ?_
  have hKind : t.kind = f.kind := by rw [← ht, Token.kind_terminal]
  have hMark : ∀ {kind}, t.kind = kind → isMark kind = true → f = .mark kind :=
    fun h hMark => Terminal.eq_mark hMark (hKind.symm.trans h)
  have hLeaf : ∀ {e : Option Span → Expr}, f.kind ≠ .endOfInput →
      (∀ s, Primary g ctx [f] (e s)) →
      Completes held False f (do let _ ← advance; pure (e (← spanFrom t))) fun xs _ e =>
        Primary g ctx xs e := by
    intro e hEnd he
    exact completes_advance_bind hEnd fun _ n _ => completes_spanFrom_bind fun s =>
      completes_pure (he s)
  split
  · next h =>
    refine hLeaf (by rw [← hKind, h]; decide) fun s => ?_
    rw [← ht, Token.terminal_number h]
    exact .number _ s
  · next h =>
    refine hLeaf (by rw [← hKind, h]; decide) fun s => ?_
    rw [← ht, Token.terminal_string h]
    exact .string _ s
  · next h =>
    obtain rfl := hMark h (by decide)
    exact hLeaf (by decide) (.boolean true)
  · next h =>
    obtain rfl := hMark h (by decide)
    exact hLeaf (by decide) (.boolean false)
  · next h =>
    obtain rfl := hMark h (by decide)
    exact hLeaf (by decide) .null
  · next h =>
    obtain rfl := hMark h (by decide)
    refine completes_advance_bind (by decide) fun _ n _ => ?_
    refine completes_ite (fun _ => completes_refused (by rw [h]; decide)) fun hEnclosed => ?_
    exact completes_spanFrom_bind fun s => completes_pure (.this s hEnclosed)
  · next h =>
    obtain rfl := hMark h (by decide)
    refine completes_advance_bind (by decide) fun _ n _ => ?_
    unfold superExpr
    split
    · exact completes_refused (by rw [h]; decide)
    · exact completes_refused (by rw [h]; decide)
    · next hDerived =>
      refine completes_expect_bind (by decide) fun _ _ n => completes_ident_bind fun m n => ?_
      exact completes_spanFrom_bind fun s => completes_pure (.super m s hDerived)
  · next h =>
    refine completes_advance_bind (by rw [← hKind, h]; decide) fun _ n _ => ?_
    refine completes_spanFrom_bind fun s => completes_pure ?_
    rw [← ht, Token.terminal_name h]
    exact .name ⟨t.lexeme, s⟩
  · next h =>
    obtain rfl := hMark h (by decide)
    refine completes_advance_bind (by decide) fun _ n _ => ?_
    refine completes_bind (hInner.expression ctx n) fun e xs n he => ?_
    exact completes_expect_bind (by decide) fun _ _ n => completes_pure (.grouped he)
  · next h =>
    obtain rfl := hMark h (by decide)
    refine completes_advance_bind (by decide) fun _ n _ => ?_
    refine completes_bind (completes_expressions hInner _) fun es xs n hes => ?_
    refine completes_expect_bind (by decide) fun _ _ n => ?_
    exact completes_spanFrom_bind fun s => completes_pure (.array s hes)
  · exact completes_missing ht .name

theorem completes_suffixed (hInner : CompletesLevel held l g) {start : Token} {e : Expr}
    {kind : TokenKind} {suffix : Suffix} (hSuffix : Suffix.ofKind kind = some suffix) :
    Completes held False f (suffixed l ctx start e suffix) fun xs _ e' =>
      Suffixed g ctx e (.mark kind :: xs) e' := by
  unfold Suffix.ofKind at hSuffix
  split at hSuffix <;> cases hSuffix
  · refine completes_bind (completes_expressions hInner _) fun es xs n hes => ?_
    refine completes_expect_bind (by decide) fun _ _ n => ?_
    exact completes_spanFrom_bind fun s => completes_pure (.call s hes)
  · exact completes_ident_bind fun m n => completes_spanFrom_bind fun s =>
      completes_pure (.member m s)
  · refine completes_bind (hInner.expression ctx f) fun i xs n hi => ?_
    refine completes_expect_bind (by decide) fun _ _ n => ?_
    exact completes_spanFrom_bind fun s => completes_pure (.index s hi)

/-- A start and rounds, each of which begins with a mark. -/
theorem completes_chained {β : Type} {start : Parser Expr} {wanted : TokenKind → Option β}
    {step : Expr → β → Parser Expr} {form : List Terminal → Expr → Prop}
    {round : Expr → List Terminal → Expr → Prop} {tier : Nat} (hTier : OfTier wanted tier)
    (hStart : Completes held False f start fun xs _ e => form xs e)
    (hStep : ∀ e kind b f, wanted kind = some b →
      Completes held False f (step e b) fun xs _ e' => round e (.mark kind :: xs) e') :
    Completes held False f (start >>= fun e => chain (acceptAs wanted) step e) fun xs _ e =>
      Chained form round xs e := by
  refine completes_bind hStart fun e xs n he => ?_
  refine completes_mono (completes_chain (I := fun ys _ e' => Rounds round e ys e') ?_ .done) ?_
  · intro ys f e' hRounds
    have hEnd : wanted .endOfInput = none := hTier.eq_none (Nat.ne_of_lt hTier.pos)
    refine completes_mono (completes_acceptAs hEnd) fun zs n b hb => ?_
    obtain ⟨hb, hzs, hStop⟩ := hb
    refine ⟨fun hNone => ⟨by simp [hzs, hNone], hStop hNone⟩, ?_⟩
    rintro b rfl
    have hf : f = .mark f.kind := Terminal.eq_mark (hTier.isMark hb.symm) rfl
    refine completes_mono (hStep e' f.kind b n hb.symm) fun ws m e'' hRound => ?_
    rw [← hf] at hRound
    simpa [hzs] using hRounds.snoc hRound
  · intro ys n e' hRounds
    exact ⟨xs, ys, e, rfl, he, hRounds⟩

theorem completes_call (hInner : CompletesLevel held l g) :
    Completes held False f (call l ctx) fun xs _ e => Called g ctx xs e := by
  refine completes_peek_bind fun start _ => ?_
  exact completes_chained ofTier_suffix (completes_primary hInner) fun _ _ _ _ hb =>
    completes_suffixed hInner hb

theorem completes_leftAssoc {β : Type} {op : TokenKind → Option β}
    {join : β → Expr → Expr → Option Span → Expr} {operand : Parser Expr}
    {form : List Terminal → Expr → Prop} {tier : Nat} (hTier : OfTier op tier)
    (hOperand : ∀ f, Completes held False f operand fun xs _ e => form xs e) :
    Completes held False f (leftAssoc op join operand) fun xs _ e =>
      LeftAssoc op join form xs e := by
  refine completes_peek_bind fun start _ => ?_
  refine completes_chained hTier (hOperand f) fun e kind b f hb => ?_
  refine completes_bind (hOperand f) fun r xs n hr => completes_spanFrom_bind fun s =>
    completes_pure ?_
  rw [List.append_nil]
  exact .mk s hb hr

theorem completes_unary (hInner : CompletesLevel held l g) (f : Terminal) :
    Completes held False f (unary l ctx) fun xs _ e => Unary g ctx xs e := by
  refine completes_peek_bind fun t ht => ?_
  have hKind : t.kind = f.kind := by rw [← ht, Token.kind_terminal]
  rw [hKind]
  split
  · next op hOp =>
    have hMark : isMark f.kind = true := by
      generalize f.kind = kind at hOp
      cases kind <;> first | rfl | cases hOp
    refine completes_advance_bind (Terminal.ne_end_of_isMark hMark) fun _ n _ => ?_
    refine completes_bind (hInner.operand ctx n) fun e xs n he => ?_
    refine completes_spanFrom_bind fun s => completes_pure ?_
    rw [List.append_nil]
    have hf : f = .mark f.kind := Terminal.eq_mark hMark rfl
    rw [hf]
    exact .operator s hOp he
  · exact completes_mono (completes_call hInner) fun _ _ _ he => .call he

theorem completes_logicOr (hInner : CompletesLevel held l g) (f : Terminal) :
    Completes held False f (logicOr l ctx) fun xs _ e => LogicOr g ctx xs e := by
  refine completes_leftAssoc ofTier_or fun f => ?_
  refine completes_leftAssoc ofTier_and fun f => ?_
  refine completes_leftAssoc ofTier_equality fun f => ?_
  refine completes_leftAssoc ofTier_comparison fun f => ?_
  refine completes_leftAssoc ofTier_term fun f => ?_
  exact completes_leftAssoc ofTier_factor fun f => completes_unary hInner f

/-- The target is looked at only when the value has been read, so this parser is held to nothing. -/
theorem takes_assignment (hInner : SoundLevel l g) (f : Terminal) :
    Takes f (assignment l ctx) fun xs _ e => Expression g ctx xs e := by
  refine takes_peek_bind fun start _ => ?_
  refine takes_bind (completes_logicOr hInner.completes f).takes fun target xs n hTarget => ?_
  refine takes_check_bind fun b hb => takes_ite (fun hTrue => ?_) fun _ => ?_
  · obtain rfl := Terminal.eq_mark (by decide) (hb.mp hTrue)
    refine takes_advance_bind (by decide) fun equals n _ => ?_
    refine takes_bind (hInner.expression ctx n) fun value ys n hValue => ?_
    refine takes_spanFrom_bind fun s => ?_
    split
    · next e hAssign => exact takes_pure (by simpa using .assign s hTarget hValue hAssign)
    · exact takes_failAt _ _
  · exact takes_pure (by simpa using .value hTarget)

/-! ## Statements -/

theorem completes_terminated {α : Type} (a : α) :
    Completes held late f (terminated a) fun xs n b => b = a ∧ Terminated xs n := by
  refine completes_accept_bind (by decide) (fun _ n => completes_pure ⟨rfl, .semicolon⟩)
    fun _ => ?_
  refine completes_atClose_bind fun b hb => completes_ite (fun hTrue => ?_) fun hOpen => ?_
  · exact completes_pure ⟨rfl, .omitted (hb.mp hTrue)⟩
  · exact completes_peek_bind fun t ht => completes_wanted ht fun _ hEnd =>
      absurd (hb.mpr (.inr hEnd)) hOpen

/-- A statement that ends where its terminator does. -/
theorem completes_terminated_of {s : Stmt} (xs : List Terminal)
    (h : ∀ ys n, Terminated ys n → Statement g ctx (xs ++ ys) n s) :
    Completes held late f (terminated s) fun ys n s' => Statement g ctx (xs ++ ys) n s' := by
  refine completes_mono (completes_terminated s) fun ys n s' hs => ?_
  obtain ⟨rfl, hEnds⟩ := hs
  exact h ys n hEnds

theorem completes_block (hInner : CompletesLevel held l g) {what : String} (f : Terminal) :
    Completes held False f (block l ctx what) fun xs _ b => Braced g ctx xs b := by
  refine completes_expect_bind (by decide) fun _ _ n => ?_
  refine completes_bind (completes_untilClose (hInner.declaration ctx)) fun body xs n hBody => ?_
  refine completes_expect_bind (by decide) fun hn _ n' => ?_
  refine completes_spanFrom_bind fun s => completes_pure (.mk s ?_)
  rcases hn with rfl | ⟨hHeld, -⟩
  · exact hBody
  · -- where the brace is missing, the statements were closed by the end of input
    refine hBody.closes fun ys a ha => ?_
    exact hInner.closes hHeld ctx ys n _ a ha (.inl rfl)

theorem completes_parenthesized (hInner : CompletesLevel held l g) {keyword : String} :
    Completes held False f (parenthesized l ctx keyword) fun xs _ e => Condition g ctx xs e := by
  refine completes_expect_bind (by decide) fun _ _ n => ?_
  refine completes_bind (hInner.expression ctx n) fun e xs n he => ?_
  exact completes_expect_bind (by decide) fun _ _ n => completes_pure (.mk he)

theorem completes_param {before : List Ident} (hBefore : (before.map (·.name)).Nodup)
    (f : Terminal) : Completes held False f (param before) fun xs _ id =>
      Parameter xs id ∧ ((id :: before).map (·.name)).Nodup := by
  refine completes_fresh (c := fun id => before.any (fun other => other.name = id.name) = true)
    (k := id) ?_ fun id n hFresh => ⟨.mk id, ?_⟩
  · obtain ⟨w, hFree, hWritten⟩ := Terminal.exists_name (before.map (·.name))
    refine ⟨w, hWritten, fun hAny => hFree ?_⟩
    obtain ⟨other, hOther, hName⟩ := List.any_eq_true.mp hAny
    exact List.mem_map.mpr ⟨other, hOther, by simpa using hName⟩
  · rw [List.map_cons, List.nodup_cons]
    refine ⟨fun hMem => hFresh ?_, hBefore⟩
    obtain ⟨other, hOther, hName⟩ := List.mem_map.mp hMem
    exact List.any_eq_true.mpr ⟨other, hOther, by simpa using hName⟩

theorem completes_funcDef (hInner : CompletesLevel held l g) {what : String} :
    Completes held False (.mark .kwFunc) (funcDef l ctx what) fun xs _ fn =>
      Function g ctx xs fn := by
  refine completes_advance_bind (by decide) fun _ n _ => completes_ident_bind fun id n => ?_
  refine completes_expect_bind (by decide) fun _ _ n => ?_
  refine completes_bind (completes_commaSeparated (L := fun ids => (ids.map (·.name)).Nodup)
    List.nodup_nil fun before hBefore f => completes_param hBefore f) fun params xs n hParams => ?_
  have hFresh : (params.map (·.name)).Nodup := by
    have hReverse := hParams.2
    rw [List.map_reverse] at hReverse
    exact (List.reverse_perm _).nodup_iff.mp hReverse
  refine completes_expect_bind (by decide) fun _ _ n => ?_
  refine completes_bind (completes_block hInner n) fun body ys n hBody => ?_
  refine completes_spanFrom_bind fun s => completes_pure ?_
  simpa using Function.mk id s hParams.1 hFresh hBody

theorem completes_superclass {id : Ident} :
    Completes held False f (superclass id) fun xs _ parent => Superclass id xs parent := by
  refine completes_accept_bind (by decide) (fun _ n => ?_) fun _ => completes_pure .none
  refine completes_fresh (c := fun parent => parent.name = id.name) (k := some) ?_
    fun parent n hOther => .some parent hOther
  obtain ⟨w, hFree, hWritten⟩ := Terminal.exists_name [id.name]
  exact ⟨w, hWritten, fun hSame => hFree (List.mem_singleton.mpr hSame)⟩

theorem completes_method (hInner : CompletesLevel held l g) (f : Terminal)
    (hf : held → f.kind ≠ .endOfInput) :
    Completes held False f (method l ctx) fun xs _ fn => Function g ctx xs fn := by
  refine completes_peek_bind fun t ht => completes_ite (fun hKind => ?_) fun _ =>
    completes_wanted ht fun hHeld hEnd => absurd hEnd (hf hHeld)
  obtain rfl : f = .mark .kwFunc :=
    Terminal.eq_mark (by decide) (by rw [← ht, Token.kind_terminal, hKind])
  exact completes_funcDef hInner

theorem completes_classDef (hInner : CompletesLevel held l g) :
    Completes held False (.mark .kwClass) (classDef l ctx) fun xs _ c => Class g ctx xs c := by
  refine completes_advance_bind (by decide) fun _ n _ => completes_ident_bind fun id n => ?_
  refine completes_bind completes_superclass fun parent xs n hParent => ?_
  refine completes_expect_bind (by decide) fun _ _ n => ?_
  refine completes_bind (completes_untilClose (completes_method hInner))
    fun methods ys n hMethods => ?_
  refine completes_expect_bind (by decide) fun _ _ n => ?_
  refine completes_spanFrom_bind fun s => completes_pure ?_
  simpa using Class.mk id s hParent hMethods

theorem completes_varDecl (hInner : CompletesLevel held l g) :
    Completes held False (.mark .kwVar) (varDecl l ctx) fun xs _ s => Plain g ctx xs s := by
  refine completes_advance_bind (by decide) fun _ n _ => completes_ident_bind fun id n => ?_
  refine completes_accept_bind (by decide) (fun _ n => ?_) fun _ => ?_
  · refine completes_bind (R := fun xs _ v => ∃ e, v = some e ∧ g.expression ctx xs e)
      (completes_map ?_) fun v xs n hv => ?_
    · exact completes_mono (hInner.expression ctx n) fun _ _ e he => ⟨e, rfl, he⟩
    · obtain ⟨e, rfl, he⟩ := hv
      exact completes_spanFrom_bind fun s => completes_pure (by simpa using .var id s he)
  · exact completes_spanFrom_bind fun s => completes_pure (.declare id s)

theorem completes_constDecl (hInner : CompletesLevel held l g) :
    Completes held False (.mark .kwConst) (constDecl l ctx) fun xs _ s => Plain g ctx xs s := by
  refine completes_advance_bind (by decide) fun _ n _ => completes_ident_bind fun id n => ?_
  refine completes_expect_bind (by decide) fun _ _ n => ?_
  refine completes_bind (hInner.expression ctx n) fun v xs n hv => ?_
  exact completes_spanFrom_bind fun s => completes_pure (by simpa using .const id s hv)

theorem completes_exprStmt (hInner : CompletesLevel held l g) :
    Completes held False f (exprStmt l ctx) fun xs _ s => Plain g ctx xs s := by
  refine completes_peek_bind fun start _ => ?_
  refine completes_bind (hInner.expression ctx f) fun e xs n he => ?_
  exact completes_spanFrom_bind fun s => completes_pure (by simpa using .expr s he)

/-! ### Control flow -/

theorem completes_elifClause (hInner : CompletesLevel held l g) :
    Completes held False (.mark .kwElif) (elifClause l ctx) fun xs _ c => Arm g ctx xs c := by
  refine completes_advance_bind (by decide) fun _ n _ => ?_
  refine completes_bind (completes_parenthesized hInner) fun c xs n hc => ?_
  refine completes_bind (completes_block hInner n) fun body ys n hBody => ?_
  exact completes_spanFrom_bind fun s => completes_pure (by simpa using .mk s hc hBody)

theorem completes_elifClauses (hInner : CompletesLevel held l g) :
    Completes held False f (elifClauses l ctx) fun xs n cs =>
      Series (fun ys _ => Arm g ctx ys) xs n cs := by
  refine completes_bind (completes_chain
    (I := fun xs n cs => Series (fun ys _ => Arm g ctx ys) xs n cs.reverse) ?_ .nil) ?_
  · intro xs f cs hcs
    refine completes_check_bind fun b hb => completes_ite (fun hTrue => ?_) fun _ => ?_
    · obtain rfl := Terminal.eq_mark (by decide) (hb.mp hTrue)
      refine completes_pure ⟨nofun, fun _ _ => ?_⟩
      refine completes_bind (completes_first (fun _ => by decide) (completes_elifClause hInner))
        fun c ys n hc => completes_pure ?_
      obtain ⟨hc, hFirst⟩ := hc
      rw [hFirst] at hcs
      simpa using hcs.snoc hc
    · exact completes_pure ⟨fun _ => ⟨rfl, rfl⟩, nofun⟩
  · intro cs xs n hcs
    exact completes_pure (by simpa using hcs)

theorem completes_ifStmt (hInner : CompletesLevel held l g) :
    Completes held False (.mark .kwIf) (ifStmt l ctx) (Statement g ctx) := by
  refine completes_advance_bind (by decide) fun _ n _ => ?_
  refine completes_bind (completes_parenthesized hInner) fun c ws n hc => ?_
  refine completes_bind (completes_block hInner n) fun body xs n hBody => ?_
  refine completes_bind (completes_elifClauses hInner) fun elifs ys n hElifs => ?_
  refine completes_accept_bind (by decide) (fun _ n => ?_) fun _ => ?_
  · refine completes_bind (R := fun zs _ e => Optional (ElseArm g ctx) (.mark .kwElse :: zs) e)
      (completes_map ?_) fun e zs n he => completes_spanFrom_bind fun s => completes_pure ?_
    · exact completes_mono (completes_block hInner n) fun _ _ _ hb => .some (.mk hb)
    · simpa using Statement.ifElse s hc hBody hElifs he
  · refine completes_spanFrom_bind fun s => completes_pure ?_
    simpa using Statement.ifElse s hc hBody hElifs .none

theorem completes_whileStmt (hInner : CompletesLevel held l g) :
    Completes held False (.mark .kwWhile) (whileStmt l ctx) (Statement g ctx) := by
  refine completes_advance_bind (by decide) fun _ n _ => ?_
  refine completes_bind (completes_parenthesized hInner) fun c xs n hc => ?_
  refine completes_bind (completes_block hInner n) fun body ys n hBody => ?_
  exact completes_spanFrom_bind fun s => completes_pure (by simpa using .whileLoop s hc hBody)

theorem completes_forStart (hInner : CompletesLevel held l g) :
    Completes held False f (forStart l ctx) fun xs _ i => Optional (Plain g ctx) xs i := by
  refine completes_peek_bind fun t ht => ?_
  have hMark : ∀ {kind}, t.kind = kind → isMark kind = true → f = .mark kind := fun h hMark =>
    Terminal.eq_mark hMark (by rw [← ht, Token.kind_terminal, h])
  split
  · next h =>
    obtain rfl := hMark h (by decide)
    exact completes_map (completes_mono (completes_varDecl hInner) fun _ _ _ hs => .some hs)
  · next h =>
    obtain rfl := hMark h (by decide)
    exact completes_map (completes_mono (completes_constDecl hInner) fun _ _ _ hs => .some hs)
  · exact completes_pure .none
  · exact completes_map (completes_mono (completes_exprStmt hInner) fun _ _ _ hs => .some hs)

theorem completes_optionalBefore (hInner : CompletesLevel held l g) {close : TokenKind} :
    Completes held False f (optionalBefore l ctx close) fun xs _ e =>
      Optional (g.expression ctx) xs e := by
  refine completes_check_bind fun b _ => completes_ite (fun _ => completes_pure .none) fun _ => ?_
  exact completes_map (completes_mono (hInner.expression ctx f) fun _ _ _ he => .some he)

theorem completes_forStmt (hInner : CompletesLevel held l g) :
    Completes held False (.mark .kwFor) (forStmt l ctx) (Statement g ctx) := by
  refine completes_advance_bind (by decide) fun _ n _ => ?_
  refine completes_expect_bind (by decide) fun _ _ n => ?_
  refine completes_bind (completes_forStart hInner) fun i ws n hi => ?_
  refine completes_expect_bind (by decide) fun _ _ n => ?_
  refine completes_bind (completes_optionalBefore hInner) fun c xs n hc => ?_
  refine completes_expect_bind (by decide) fun _ _ n => ?_
  refine completes_bind (completes_optionalBefore hInner) fun u ys n hu => ?_
  refine completes_expect_bind (by decide) fun _ _ n => ?_
  refine completes_bind (completes_block hInner n) fun body zs n hBody => ?_
  exact completes_spanFrom_bind fun s => completes_pure (by simpa using .forLoop s hi hc hu hBody)

/-- A `break` or `continue`, which is refused outside of loops. -/
theorem completes_loopExit {kind : TokenKind} {s : Option Span → Stmt} {cause : ParseCause}
    (hMark : isMark kind = true) (hForm : ∀ v, ctx.inLoop = true → ∀ ys n, Terminated ys n →
      Statement g ctx (.mark kind :: ys) n (s v)) :
    Completes held False (.mark kind) (do
      let keyword ← advance
      if ctx.inLoop then terminated (s (← spanFrom keyword))
      else failAt keyword cause) (Statement g ctx) := by
  have hEnd := Terminal.ne_end_of_isMark hMark
  refine completes_advance_bind hEnd fun keyword n hKeyword => ?_
  refine completes_ite (fun hLoop => completes_spanFrom_bind fun v => ?_) fun _ => ?_
  · exact completes_terminated_of [.mark kind] (hForm v hLoop)
  · exact completes_refused (by rw [← Token.kind_terminal, hKeyword]; exact hEnd)

theorem completes_returnValue (hInner : CompletesLevel held l g) :
    Completes held False f (returnValue l ctx) fun xs _ e => Optional (g.expression ctx) xs e := by
  refine completes_check_bind fun b _ => completes_ite (fun _ => completes_pure .none) fun _ => ?_
  refine completes_atClose_bind fun b _ => completes_ite (fun _ => completes_pure .none) fun _ => ?_
  exact completes_map (completes_mono (hInner.expression ctx f) fun _ _ _ he => .some he)

theorem completes_returnStmt (hInner : CompletesLevel held l g) :
    Completes held False (.mark .kwReturn) (returnStmt l ctx) (Statement g ctx) := by
  refine completes_advance_bind (by decide) fun keyword n hKeyword => ?_
  refine completes_ite (fun hFunction => ?_) fun _ =>
    completes_refused (by rw [← Token.kind_terminal, hKeyword]; decide)
  refine completes_bind (completes_returnValue hInner) fun e xs n he =>
    completes_spanFrom_bind fun s => ?_
  refine completes_mono (completes_terminated_of (.mark .kwReturn :: xs) fun ys n hEnds =>
    .ret s hFunction he hEnds) fun ys n s' hs => by simpa using hs

theorem completes_tryStmt (hInner : CompletesLevel held l g) :
    Completes held False (.mark .kwTry) (tryStmt l ctx) (Statement g ctx) := by
  refine completes_advance_bind (by decide) fun _ n _ => ?_
  refine completes_bind (completes_block hInner n) fun body xs n hBody => ?_
  refine completes_expect_bind (by decide) fun _ _ n => ?_
  refine completes_expect_bind (by decide) fun _ _ n => completes_ident_bind fun param n => ?_
  refine completes_expect_bind (by decide) fun _ _ n => ?_
  refine completes_bind (completes_block hInner n) fun handler ys n hHandler => ?_
  exact completes_spanFrom_bind fun s =>
    completes_pure (by simpa using .tryCatch param s hBody hHandler)

theorem completes_throwStmt (hInner : CompletesLevel held l g) :
    Completes held False (.mark .kwThrow) (throwStmt l ctx) (Statement g ctx) := by
  refine completes_advance_bind (by decide) fun _ n _ => ?_
  refine completes_bind (hInner.expression ctx n) fun e xs n he =>
    completes_spanFrom_bind fun s => ?_
  refine completes_mono (completes_terminated_of (.mark .kwThrow :: xs) fun ys n hEnds =>
    .throw s he hEnds) fun ys n s' hs => by simpa using hs

/-- A simple statement and its terminator. -/
theorem completes_simple {p : Parser Simple}
    (hp : Completes held False f p fun xs _ s => Plain g ctx xs s) :
    Completes held False f (p >>= fun s => terminated (.simple s)) (Statement g ctx) :=
  completes_bind hp fun _ _ _ hs => completes_terminated_of _ fun _ _ hEnds => .simple hs hEnds

theorem completes_declaration (hInner : CompletesLevel held l g) (f : Terminal) :
    Completes held False f (declaration l ctx) (Statement g ctx) := by
  refine completes_peek_bind fun t ht => ?_
  have hMark : ∀ {kind}, t.kind = kind → isMark kind = true → f = .mark kind := fun h hMark =>
    Terminal.eq_mark hMark (by rw [← ht, Token.kind_terminal, h])
  split
  case h_14 => exact completes_simple (completes_exprStmt hInner)
  all_goals obtain rfl := hMark ‹t.kind = _› (by decide)
  · exact completes_map (completes_mono (completes_classDef hInner) fun _ _ _ hc => .cls hc)
  · exact completes_map (completes_mono (completes_funcDef hInner) fun _ _ _ hf => .func hf)
  · exact completes_simple (completes_varDecl hInner)
  · exact completes_simple (completes_constDecl hInner)
  · exact completes_ifStmt hInner
  · exact completes_whileStmt hInner
  · exact completes_forStmt hInner
  · exact completes_loopExit (by decide) fun v hLoop _ _ hEnds => .breakLoop v hLoop hEnds
  · exact completes_loopExit (by decide) fun v hLoop _ _ hEnds => .continueLoop v hLoop hEnds
  · exact completes_returnStmt hInner
  · exact completes_tryStmt hInner
  · exact completes_throwStmt hInner
  · exact completes_map (completes_mono (completes_block hInner _) fun _ _ _ hb => .block hb)

/-! ## Levels and programs -/

theorem level_sound (room : Nat) : SoundLevel (level room) (forms room) := by
  induction room with
  | zero =>
    have hNested : ∀ {α : Type} {R : List Terminal → Terminal → α → Prop} (f : Terminal),
        Takes f tooNested R := fun f => takes_peek_bind fun _ _ => takes_failAt _ _
    exact ⟨fun _ f => hNested f, fun _ f => hNested f, fun _ f => hNested f⟩
  | succ room ih =>
    exact ⟨fun _ f => takes_assignment ih f, fun _ f => (completes_unary ih.completes f).takes,
      fun _ f => (completes_declaration ih.completes f).takes⟩

theorem completes_statements (hLevel : CompletesLevel held l g) (fuel : Nat) (f : Terminal) :
    Completes held False f
      (chainUpTo (do if ← check .endOfInput then pure none else pure (some ()))
        (fun body _ => do pure ((← l.declaration .top) :: body)) fuel ([] : List Stmt))
      fun xs n body => Series (g.declaration .top) xs n body.reverse := by
  refine completes_chainUpTo (I := fun xs n body =>
    Series (g.declaration .top) xs n body.reverse) ?_ fuel [] f [] .nil
  intro xs f body hBody
  refine completes_check_bind fun b hb => completes_ite (fun _ => ?_) fun hMore => ?_
  · exact completes_pure ⟨fun _ => ⟨rfl, rfl⟩, nofun⟩
  · have hSome : held → f.kind ≠ .endOfInput := fun _ hEnd => hMore (hb.mpr hEnd)
    refine completes_pure ⟨nofun, fun _ _ => ?_⟩
    refine completes_bind (completes_first hSome (hLevel.declaration .top f hSome))
      fun a ys n ha => completes_pure ?_
    obtain ⟨ha, rfl⟩ := ha
    simpa using hBody.snoc ha

theorem takes_statements {room : Nat} (hLevel : SoundLevel l (forms room)) (fuel : Nat)
    (f : Terminal) : Takes f
    (chainUpTo (do if ← check .endOfInput then pure none else pure (some ()))
      (fun body _ => do pure ((← l.declaration .top) :: body)) fuel ([] : List Stmt))
    fun xs n body => Series ((forms room).declaration .top) xs n body.reverse ∧
      (n.kind = .endOfInput ∨ fuel ≤ xs.length) := by
  refine takes_and (completes_statements hLevel.completes fuel f).takes
    (stops_chainUpTo ?_ ?_ fuel f [])
  · intro f
    refine takes_check_bind fun b hb => takes_ite (fun hTrue => ?_) fun _ => takes_pure nofun
    exact takes_pure fun _ => hb.mp hTrue
  · intro f body _
    refine takes_bind (hLevel.declaration .top f) fun a xs n ha => takes_pure ?_
    rw [List.append_nil]
    exact (forms_declaration_opens ha).ne_nil

/-- Each statement takes something, so the fuel lasts to the end of input. -/
theorem exists_of_statements {room : Nat} {s s' : Input} {body : List Stmt}
    (hLevel : SoundLevel l (forms room)) (hSize : s.terminals.length ≤ s.size)
    (h : chainUpTo (do if ← check .endOfInput then pure none else pure (some ()))
      (fun body _ => do pure ((← l.declaration .top) :: body)) (s.size + 1) [] s =
        .ok (body, s')) :
    ∃ xs, s.Leads xs s' ∧ s'.terminals = [] ∧
      Series ((forms room).declaration .top) xs (.mark .endOfInput) body.reverse := by
  obtain ⟨xs, hTaken, hSeries, hStop⟩ :=
    takes_statements hLevel (s.size + 1) _ s body s' rfl h
  have hEnd : s'.ahead.kind = .endOfInput := by
    rcases hStop with hEnd | hFuel
    · exact hEnd
    · have hLength := congrArg List.length hTaken.terminals
      rw [List.length_append] at hLength
      omega
  have hNone : s'.terminals = [] := Input.terminals_eq_nil hEnd
  rw [Input.ahead, hNone] at hSeries
  exact ⟨xs, hTaken, hNone, hSeries⟩

/-- The statements of a program are all that is ahead, and the end of input is seen after them. -/
theorem exists_end_of_program {s s' : Input} {p : Program} (hSize : s.terminals.length ≤ s.size)
    (h : program s = .ok (p, s')) : ∃ xs finish, s.Leads xs s' ∧ s'.terminals = [] ∧
      peek s' = .ok (finish, s') ∧
      Series ((forms maxNesting).declaration .top) xs (.mark .endOfInput) p.body := by
  obtain ⟨start, s₁, hStart, hRest⟩ := exists_of_bind h
  obtain rfl := peek_stays hStart
  obtain ⟨body, s₂, hBody, hFinish⟩ := exists_of_bind hRest
  obtain ⟨finish, s₃, hPeek, hDone⟩ := exists_of_bind hFinish
  obtain rfl := peek_stays hPeek
  cases hDone
  obtain ⟨xs, hTaken, hNone, hSeries⟩ :=
    exists_of_statements (level_sound maxNesting) hSize hBody
  exact ⟨xs, finish, hTaken, hNone, hPeek, hSeries⟩

/-- The statements of a program are all that is ahead. -/
theorem whole_of_program {s s' : Input} {p : Program} (hSize : s.terminals.length ≤ s.size)
    (h : program s = .ok (p, s')) : Whole s.terminals p := by
  obtain ⟨xs, finish, hTaken, hNone, -, hSeries⟩ := exists_end_of_program hSize h
  have hAll := hTaken.terminals
  rw [hNone, List.append_nil] at hAll
  rw [hAll]
  exact hSeries

end Grammar

/-- A stream that is parsed is one that the grammar's parser comes through. -/
theorem Program.exists_of_stream {stream : TokenStream} {p : Program}
    (h : ofStream? stream = .ok p) :
    ∃ s, Grammar.program (Input.ofStream stream) = .ok (p, s) := by
  change (Grammar.program (Input.ofStream stream) >>= fun q => pure q.1) = .ok p at h
  cases hRun : Grammar.program (Input.ofStream stream) with
  | error e => rw [hRun] at h; cases h
  | ok q =>
    rw [hRun] at h
    cases h
    exact ⟨q.2, rfl⟩

/-- The terminals of a stream spell the program that is parsed from it. -/
theorem Program.whole_of_stream {stream : TokenStream} {p : Program}
    (h : ofStream? stream = .ok p) : Form.Whole stream.terminals p := by
  obtain ⟨s, hRun⟩ := exists_of_stream h
  exact Grammar.whole_of_program (s := Input.ofStream stream)
    (Token.length_terminals_le stream.tokens) hRun

/-- A stream without an end of input is parsed only if nothing is wrong after its tokens. -/
theorem Program.failure_of_stream {stream : TokenStream} {p : Program}
    (h : ofStream? stream = .ok p) (hKinds : ∀ t ∈ stream.tokens, t.kind ≠ .endOfInput) :
    stream.failure = none := by
  obtain ⟨s, hRun⟩ := exists_of_stream h
  obtain ⟨xs, finish, hTaken, hNone, hPeek, -⟩ :=
    Grammar.exists_end_of_program (s := Input.ofStream stream)
      (Token.length_terminals_le stream.tokens) hRun
  have hRest : s.rest = [] := by
    cases hRow : s.rest with
    | nil => rfl
    | cons t rest =>
      have hMem : t ∈ stream.tokens := hTaken.rest.subset (hRow ▸ List.mem_cons_self)
      rw [Input.terminals, hRow, Token.terminals_cons (hKinds t hMem)] at hNone
      cases hNone
  have hFailure : s.failure = stream.failure := hTaken.failure
  cases hTrouble : stream.failure with
  | none => rfl
  | some e =>
    rw [Parser.peek, hRest, hFailure, hTrouble] at hPeek
    cases hPeek

end Tern
