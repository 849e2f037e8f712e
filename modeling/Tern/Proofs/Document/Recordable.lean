import Tern.Document.Loader
import Tern.Proofs.Decimal.ReadBack
import Tern.Proofs.Json.Arrangement
import Tern.Proofs.Json.RoundTrip
import Tern.Proofs.Syntax.Tree

/-!
# What documents can record

A document can record a tree whose numbers are finite, negative zero aside, and whose positions
are positive. The JSON value that is written for such a tree is one that reading gives: the keys of
every object are different words, so the members are in order, and no number is negative zero.

* `Node.Recordable`: what a document can record about a node;
* `Node.All.canonical`, `Document.canonical`: the JSON of a tree and of a document is canonical.
-/

namespace Tern

/-! ## What can be recorded -/

/-- A double that is neither infinite nor no number. -/
def Number.IsFinite (x : Float) : Prop := ∃ b, Binary.ofFloat? x = some b

/-- Negative zero, of which JSON does not keep the sign. -/
def Number.IsNegativeZero (x : Float) : Prop := ∃ e, Binary.ofFloat? x = some ⟨true, 0, e⟩

/-- A line or column that a document can record: it is positive, and a double. -/
structure Number.RecordableCount (n : Nat) : Prop where
  pos : 0 < n
  isDouble : Decimal.exactBound ≤ n → ∃ x, Number.toInt? x = some (n : Int)

theorem Number.RecordableCount.of_lt {n : Nat} (hPos : 0 < n) (hLt : n < Decimal.exactBound) :
    Number.RecordableCount n :=
  ⟨hPos, fun h => absurd hLt (Nat.not_lt.mpr h)⟩

/-- A position that a document can record. -/
structure Position.Recordable (p : Position) : Prop where
  line : Number.RecordableCount p.line
  column : Number.RecordableCount p.column

/-- A node that is written as it will be read as JSON, its children aside. -/
structure Node.Printable (n : Node) : Prop where
  span : ∀ s ∈ n.span, s.start.Recordable ∧ s.stop.Recordable
  signed : ∀ x s, n = .expr (.number x s) → ¬Number.IsNegativeZero x

/-- A node whose number, if it is a literal, is finite. -/
def Node.Finite (n : Node) : Prop := ∀ x s, n = .expr (.number x s) → Number.IsFinite x

/-- A node that a document can record, its children aside. -/
structure Node.Recordable (n : Node) : Prop extends n.Printable where
  finite : n.Finite

/-! ### Numbers -/

namespace Decimal

theorem normal_ofFloat {x : Float} {d : Decimal} (h : ofFloat? x = some d) : d.Normal := by
  obtain ⟨b, -, rfl⟩ := Option.map_eq_some_iff.mp h
  split
  · exact .inr ⟨rfl, rfl⟩
  · exact normal_normalize _

/-- Negative zero is no count, and no number but itself is read back from it. -/
theorem negativeZero : (⟨true, 0, 0⟩ : Decimal).toCount? = none ∧
    Binary.ofFloat? (⟨true, 0, 0⟩ : Decimal).toFloat = some ⟨true, 0, -1074⟩ := by
  decide +kernel

theorem normal_ofCount (n : Nat) : (ofCount n).Normal := by
  unfold ofCount
  split
  · exact normal_normalize _
  · cases h : ofFloat? (ofNat n).toFloat with
    | none => exact normal_normalize _
    | some d => exact normal_ofFloat h

theorem eq_negativeZero {d : Decimal} (hd : d.Normal) (hc : d.coefficient = 0)
    (hSign : d.negative = true) : d = ⟨true, 0, 0⟩ := by
  obtain ⟨negative, c, e⟩ := d
  simp only at hc hSign
  subst hc hSign
  rcases hd with h | ⟨-, he⟩
  · exact absurd rfl h
  · simp only at he
    rw [he]

/-- Below the numbers with gaps a count is given back. -/
theorem toCount_ofNat {n : Nat} (hPos : 0 < n) (hBound : n < exactBound) :
    (ofNat n).toCount? = some n := by
  rw [toCount?, small_ofNat hBound]
  dsimp only
  rw [if_pos hPos]

theorem toCount_ofCount {n : Nat} (hn : Number.RecordableCount n) :
    (ofCount n).toCount? = some n := by
  by_cases hBound : n < exactBound
  · rw [ofCount, if_pos hBound]
    exact toCount_ofNat hn.pos hBound
  · obtain ⟨x, hx⟩ := hn.isDouble (Nat.le_of_not_lt hBound)
    exact toCount_of_double (Nat.le_of_not_lt hBound) hx

end Decimal

theorem Number.IsFinite.exists_decimal {x : Float} (hx : IsFinite x) :
    ∃ d, Decimal.ofFloat? x = some d ∧ Spelling.document.number x = .number d := by
  obtain ⟨b, hb⟩ := hx
  obtain ⟨d, hd⟩ : ∃ d, Decimal.ofFloat? x = some d := ⟨_, by rw [Decimal.ofFloat?, hb]; rfl⟩
  exact ⟨d, hd, by simp [Spelling.document, hd]⟩

/-- What is not finite is written as nothing. -/
theorem Number.written_null {x : Float} (hx : ¬IsFinite x) :
    Spelling.document.number x = .null := by
  have hNone : Decimal.ofFloat? x = none := by
    cases hb : Binary.ofFloat? x with
    | none => rw [Decimal.ofFloat?, hb, Option.map_none]
    | some b => exact absurd ⟨b, hb⟩ hx
  simp [Spelling.document, hNone]

namespace Json

theorem canonical_count {n : Nat} (hn : Number.RecordableCount n) :
    (Json.number (.ofCount n)).Canonical := by
  have hNormal := Decimal.normal_ofCount n
  refine .number hNormal fun hc => ?_
  cases hSign : (Decimal.ofCount n).negative with
  | false => rfl
  | true =>
    have hCount := Decimal.toCount_ofCount hn
    rw [Decimal.eq_negativeZero hNormal hc hSign, Decimal.negativeZero.1] at hCount
    cases hCount

theorem canonical_number {x : Float} (hx : ¬Number.IsNegativeZero x) :
    (Spelling.document.number x).Canonical := by
  by_cases hFinite : Number.IsFinite x
  · obtain ⟨d, hd, hText⟩ := hFinite.exists_decimal
    have hNormal := Decimal.normal_ofFloat hd
    rw [hText]
    refine .number hNormal fun hc => ?_
    cases hSign : d.negative with
    | false => rfl
    | true =>
      have hBack := Decimal.toFloat_ofFloat hd
      rw [Decimal.eq_negativeZero hNormal hc hSign] at hBack
      have hZero := Decimal.negativeZero.2
      rw [hBack] at hZero
      exact absurd ⟨_, hZero⟩ hx
  · rw [Number.written_null hFinite]
    exact .null

theorem canonical_ofNat (n : Nat) : (Json.ofNat n).Canonical :=
  .number (Decimal.normal_normalize _) fun _ => Decimal.negative_normalize _

theorem canonical_object {members : List (Wide × Json)} (h : Arranged members)
    (hEach : ∀ m ∈ members, m.2.Canonical) : (Json.object members).Canonical :=
  .object (arrange_of_arranged h) hEach

/-- Different keys, none of which is an array index. -/
def areWords (keys : List String) : Bool :=
  decide keys.Nodup && keys.all fun key => !key.toList.all isDigit

theorem arranged_of_areWords {members : List (Wide × Json)} (keys : List String)
    (h : areWords keys = true) (hSame : members.map (·.1) = keys.map .text) :
    Arranged members := by
  simp only [areWords, Bool.and_eq_true, decide_eq_true_eq, List.all_eq_true] at h
  refine arranged_of_words ?_ fun m hm => ?_
  · rw [hSame]
    exact h.1.map fun _ _ => Wide.text.inj
  · have hKey : m.1 ∈ keys.map Wide.text := by
      rw [← hSame]
      exact List.mem_map_of_mem hm
    obtain ⟨key, hMem, hText⟩ := List.mem_map.mp hKey
    rw [← hText]
    exact indexOf_eq_none (by simpa using h.2 key hMem)

theorem canonical_position {p : Position} (hp : p.Recordable) :
    (Spelling.position p).Canonical := by
  refine canonical_object (arranged_of_areWords ["line", "column"] (by decide) rfl) ?_
  intro m hm
  simp only [List.mem_cons, List.not_mem_nil, or_false] at hm
  rcases hm with rfl | rfl
  · exact canonical_count hp.line
  · exact canonical_count hp.column

end Json

/-! ## Nodes as JSON -/

namespace Spelling

/-- The member for the span, if there is one. -/
def spanMember : Option Span → List (Wide × Json)
  | some s => [("span", document.span s)]
  | none => []

theorem node_eq (kind : String) (fields : List (Wide × Json)) (span : Option Span) :
    document.node kind fields span =
      .object ((.text "type", .string kind) :: (fields ++ spanMember span)) := by
  cases span <;> rfl

theorem canonical_spanMember {span : Option Span}
    (h : ∀ s ∈ span, s.start.Recordable ∧ s.stop.Recordable) :
    ∀ m ∈ spanMember span, m.2.Canonical := by
  intro m hm
  cases span with
  | none => cases hm
  | some s =>
    obtain ⟨hStart, hStop⟩ := h s rfl
    rw [List.mem_singleton.mp hm]
    refine Json.canonical_object (Json.arranged_of_areWords ["start", "end"] (by decide) rfl) ?_
    intro m hm
    simp only [List.mem_cons, List.not_mem_nil, or_false] at hm
    rcases hm with rfl | rfl
    · exact Json.canonical_position hStart
    · exact Json.canonical_position hStop

theorem canonical_node {kind : String} {fields : List (Wide × Json)} {span : Option Span}
    (keys : List String) (hKeys : Json.areWords ("type" :: (keys ++ ["span"])) = true)
    (hSame : fields.map (·.1) = keys.map .text) (hFields : ∀ m ∈ fields, m.2.Canonical)
    (hSpan : ∀ s ∈ span, s.start.Recordable ∧ s.stop.Recordable) :
    (document.node kind fields span).Canonical := by
  have hArranged :
      Json.Arranged ((.text "type", Json.string kind) :: (fields ++ spanMember span)) := by
    cases span with
    | some s => exact Json.arranged_of_areWords _ hKeys (by simp [spanMember, hSame])
    | none =>
      refine Json.arranged_of_areWords ("type" :: keys) ?_ (by simp [spanMember, hSame])
      have hSub : List.Sublist ("type" :: keys) ("type" :: (keys ++ ["span"])) := by simp
      simp only [Json.areWords, Bool.and_eq_true, decide_eq_true_eq, List.all_eq_true] at hKeys ⊢
      exact ⟨hKeys.1.sublist hSub, fun key hKey => hKeys.2 key (hSub.subset hKey)⟩
  rw [node_eq]
  refine Json.canonical_object hArranged ?_
  intro m hm
  rcases List.mem_cons.mp hm with rfl | hm
  · exact .string kind
  · rcases List.mem_append.mp hm with hm | hm
    · exact hFields m hm
    · exact canonical_spanMember hSpan m hm

variable (w : Spelling)

theorem exprs_eq (es : List Expr) : w.exprs es = es.map w.expr := by
  induction es with
  | nil => rfl
  | cons e es ih => rw [exprs, ih, List.map_cons]

theorem stmts_eq (body : List Stmt) : w.stmts body = body.map w.stmt := by
  induction body with
  | nil => rfl
  | cons s body ih => rw [stmts, ih, List.map_cons]

theorem funcDefs_eq (fs : List FuncDef) : w.funcDefs fs = fs.map w.funcDef := by
  induction fs with
  | nil => rfl
  | cons f fs ih => rw [funcDefs, ih, List.map_cons]

/-- An `elif` arm. -/
def elifClause (c : ElifClause) : Json :=
  w.node "ElifClause" [("condition", w.expr c.condition), ("body", w.block c.body)] c.span

theorem elifClauses_eq (cs : List ElifClause) : w.elifClauses cs = cs.map w.elifClause := by
  induction cs with
  | nil => rfl
  | cons c cs ih =>
    obtain ⟨condition, body, span⟩ := c
    rw [elifClauses, ih, List.map_cons]
    rfl

theorem optionalBlock_eq (b : Option Block) : w.optionalBlock b = optional w.block b := by
  cases b <;> rfl

end Spelling

/-- The JSON of a node. -/
def Node.toJson : Node → Json
  | .program p => Spelling.document.program p
  | .stmt s => Spelling.document.stmt s
  | .elif c => Spelling.document.elifClause c
  | .expr e => Spelling.document.expr e

namespace Json

theorem canonical_map {α : Type} {write : α → Json} {as : List α}
    (h : ∀ a ∈ as, (write a).Canonical) : (Json.array (as.map write)).Canonical := by
  refine .array fun j hj => ?_
  obtain ⟨a, ha, rfl⟩ := List.mem_map.mp hj
  exact h a ha

theorem canonical_optional {α : Type} {write : α → Json} {o : Option α}
    (h : ∀ a ∈ o, (write a).Canonical) : (Spelling.optional write o).Canonical := by
  cases o with
  | none => exact .null
  | some a => exact h a rfl

end Json

open Spelling Json

/-! ### One node from its children

In each case the fields are named in order, and each of them is canonical because what stands in it
is a child or a text, a number or a list of children. -/

theorem Node.canonical_of_expr {e : Expr} (here : Node.Printable (.expr e))
    (below : ∀ n ∈ (Node.expr e).children, n.toJson.Canonical) : (document.expr e).Canonical := by
  have hSpan := here.span
  have hExpr : ∀ e', .expr e' ∈ (Node.expr e).children → (document.expr e').Canonical :=
    fun e' he' => below _ he'
  have hIdent : ∀ id, .ident id ∈ (Node.expr e).children → (document.ident id).Canonical :=
    fun id hid => below _ hid
  cases e with
  | string v s => exact canonical_node ["value"] (by decide) rfl (by simpa using .string v) hSpan
  | number v s =>
    have hNumber := canonical_number (here.signed v s rfl)
    exact canonical_node ["value"] (by decide) rfl (by simpa using hNumber) hSpan
  | boolean v s => exact canonical_node ["value"] (by decide) rfl (by simpa using .bool v) hSpan
  | null s => exact canonical_node ["value"] (by decide) rfl (by simpa using .null) hSpan
  | array es s =>
    have hItems : ∀ e ∈ es, (document.expr e).Canonical :=
      fun e he => hExpr e (List.mem_map_of_mem he)
    refine canonical_node ["elements"] (by decide) rfl ?_ hSpan
    simpa [exprs_eq] using canonical_map hItems
  | name id => exact canonical_node ["name"] (by decide) rfl (by simpa using .string id.name) hSpan
  | this s => exact canonical_node [] (by decide) rfl (by simp) hSpan
  | super m s =>
    have hMethod := hIdent m (by simp [children, ofExpr])
    exact canonical_node ["method"] (by decide) rfl (by simpa using hMethod) hSpan
  | unary op e s =>
    have hOperand := hExpr e (by simp [children, ofExpr])
    exact canonical_node ["operator", "operand"] (by decide) rfl
      (by simpa using ⟨.string _, hOperand⟩) hSpan
  | binary op l r s =>
    have hLeft := hExpr l (by simp [children, ofExpr])
    have hRight := hExpr r (by simp [children, ofExpr])
    exact canonical_node ["operator", "left", "right"] (by decide) rfl
      (by simpa using ⟨.string _, hLeft, hRight⟩) hSpan
  | logical op l r s =>
    have hLeft := hExpr l (by simp [children, ofExpr])
    have hRight := hExpr r (by simp [children, ofExpr])
    exact canonical_node ["operator", "left", "right"] (by decide) rfl
      (by simpa using ⟨.string _, hLeft, hRight⟩) hSpan
  | call f args s =>
    have hCallee := hExpr f (by simp [children, ofExpr])
    have hArgs : ∀ e ∈ args, (document.expr e).Canonical :=
      fun e he => hExpr e (by simp [children, ofExpr, he])
    refine canonical_node ["callee", "arguments"] (by decide) rfl ?_ hSpan
    simpa [exprs_eq] using ⟨hCallee, canonical_map hArgs⟩
  | member o m s =>
    have hObject := hExpr o (by simp [children, ofExpr])
    have hMember := hIdent m (by simp [children, ofExpr])
    exact canonical_node ["object", "member"] (by decide) rfl
      (by simpa using ⟨hObject, hMember⟩) hSpan
  | setMember o m v s =>
    have hObject := hExpr o (by simp [children, ofExpr])
    have hMember := hIdent m (by simp [children, ofExpr])
    have hValue := hExpr v (by simp [children, ofExpr])
    exact canonical_node ["object", "member", "value"] (by decide) rfl
      (by simpa using ⟨hObject, hMember, hValue⟩) hSpan
  | index o i s =>
    have hObject := hExpr o (by simp [children, ofExpr])
    have hIndex := hExpr i (by simp [children, ofExpr])
    exact canonical_node ["object", "index"] (by decide) rfl
      (by simpa using ⟨hObject, hIndex⟩) hSpan
  | setIndex o i v s =>
    have hObject := hExpr o (by simp [children, ofExpr])
    have hIndex := hExpr i (by simp [children, ofExpr])
    have hValue := hExpr v (by simp [children, ofExpr])
    exact canonical_node ["object", "index", "value"] (by decide) rfl
      (by simpa using ⟨hObject, hIndex, hValue⟩) hSpan
  | assign t v s =>
    have hTarget := hIdent t (by simp [children, ofExpr])
    have hValue := hExpr v (by simp [children, ofExpr])
    exact canonical_node ["target", "value"] (by decide) rfl
      (by simpa using ⟨hTarget, hValue⟩) hSpan

theorem Node.canonical_of_stmt {s : Stmt} (here : Node.Printable (.stmt s))
    (below : ∀ n ∈ (Node.stmt s).children, n.toJson.Canonical) : (document.stmt s).Canonical := by
  have hSpan := here.span
  have hExpr : ∀ e, .expr e ∈ (Node.stmt s).children → (document.expr e).Canonical :=
    fun e he => below _ he
  have hIdent : ∀ id, .ident id ∈ (Node.stmt s).children → (document.ident id).Canonical :=
    fun id hid => below _ hid
  have hBlock : ∀ b, .block b ∈ (Node.stmt s).children → (document.block b).Canonical :=
    fun b hb => below _ hb
  cases s with
  | simple s =>
    cases s with
    | var id v s =>
      have hId := hIdent id (by simp [children, ofStmt, ofSimple])
      have hValue : (optional document.expr v).Canonical :=
        canonical_optional fun e he =>
          hExpr e (by simp [children, ofStmt, ofSimple, Option.mem_def.mp he])
      exact canonical_node ["id", "initializer"] (by decide) rfl
        (by simpa using ⟨hId, hValue⟩) hSpan
    | const id v s =>
      have hId := hIdent id (by simp [children, ofStmt, ofSimple])
      have hValue := hExpr v (by simp [children, ofStmt, ofSimple])
      exact canonical_node ["id", "initializer"] (by decide) rfl
        (by simpa using ⟨hId, hValue⟩) hSpan
    | expr e s =>
      have hValue := hExpr e (by simp [children, ofStmt, ofSimple])
      exact canonical_node ["expression"] (by decide) rfl (by simpa using hValue) hSpan
  | func f =>
    obtain ⟨id, params, body, s⟩ := f
    have hId := hIdent id (by simp [children, ofStmt])
    have hParams : ∀ id ∈ params, (document.ident id).Canonical :=
      fun id hid => hIdent id (by simp [children, ofStmt, ident, hid])
    have hBody := hBlock body (by simp [children, ofStmt])
    refine canonical_node ["id", "params", "body"] (by decide) rfl ?_ hSpan
    simpa using ⟨hId, canonical_map hParams, hBody⟩
  | cls c =>
    obtain ⟨id, parent, methods, s⟩ := c
    have hId := hIdent id (by simp [children, ofStmt])
    have hParent : (optional document.ident parent).Canonical :=
      canonical_optional fun id hid =>
        hIdent id (by simp [children, ofStmt, Option.mem_def.mp hid])
    have hMethods : ∀ f ∈ methods, (document.funcDef f).Canonical :=
      fun f hf => below (.stmt (.func f)) (by simp [children, ofStmt, hf])
    refine canonical_node ["id", "superclass", "methods"] (by decide) rfl ?_ hSpan
    simpa [funcDefs_eq] using ⟨hId, hParent, canonical_map hMethods⟩
  | block b =>
    obtain ⟨body, s⟩ := b
    have hBody : ∀ s ∈ body, (document.stmt s).Canonical :=
      fun s hs => below (.stmt s) (List.mem_map_of_mem hs)
    refine canonical_node ["body"] (by decide) rfl ?_ hSpan
    simpa [stmts_eq] using canonical_map hBody
  | ifElse c b elifs e s =>
    have hCondition := hExpr c (by simp [children, ofStmt])
    have hBody := hBlock b (by simp [children, ofStmt])
    have hElifs : ∀ a ∈ elifs, (document.elifClause a).Canonical :=
      fun a ha => below (.elif a) (by simp [children, ofStmt, ha])
    have hElse : (optional document.block e).Canonical :=
      canonical_optional fun b hb => hBlock b (by simp [children, ofStmt, Option.mem_def.mp hb])
    refine canonical_node ["ifCondition", "ifBody", "elifClauses", "elseBody"]
      (by decide) rfl ?_ hSpan
    simpa [elifClauses_eq, optionalBlock_eq] using
      ⟨hCondition, hBody, canonical_map hElifs, hElse⟩
  | whileLoop c b s =>
    have hCondition := hExpr c (by simp [children, ofStmt])
    have hBody := hBlock b (by simp [children, ofStmt])
    exact canonical_node ["condition", "body"] (by decide) rfl
      (by simpa using ⟨hCondition, hBody⟩) hSpan
  | forLoop i c u b s =>
    have hStart : (optional document.simple i).Canonical :=
      canonical_optional fun s hs => below (.stmt (.simple s))
        (by simp [children, ofStmt, Option.mem_def.mp hs])
    have hCondition : (optional document.expr c).Canonical :=
      canonical_optional fun e he => hExpr e (by simp [children, ofStmt, Option.mem_def.mp he])
    have hUpdate : (optional document.expr u).Canonical :=
      canonical_optional fun e he => hExpr e (by simp [children, ofStmt, Option.mem_def.mp he])
    have hBody := hBlock b (by simp [children, ofStmt])
    refine canonical_node ["initializer", "condition", "update", "body"] (by decide) rfl ?_ hSpan
    simpa using ⟨hStart, hCondition, hUpdate, hBody⟩
  | breakLoop s => exact canonical_node [] (by decide) rfl (by simp) hSpan
  | continueLoop s => exact canonical_node [] (by decide) rfl (by simp) hSpan
  | ret e s =>
    have hValue : (optional document.expr e).Canonical :=
      canonical_optional fun e he => hExpr e (by simp [children, ofStmt, Option.mem_def.mp he])
    exact canonical_node ["argument"] (by decide) rfl (by simpa using hValue) hSpan
  | tryCatch b p h s =>
    have hBody := hBlock b (by simp [children, ofStmt])
    have hParam := hIdent p (by simp [children, ofStmt])
    have hHandler := hBlock h (by simp [children, ofStmt])
    refine canonical_node ["tryBody", "catchParam", "catchBody"] (by decide) rfl ?_ hSpan
    simpa using ⟨hBody, hParam, hHandler⟩
  | throw e s =>
    have hValue := hExpr e (by simp [children, ofStmt])
    exact canonical_node ["expression"] (by decide) rfl (by simpa using hValue) hSpan

/-- The JSON of a tree is canonical. -/
theorem Node.All.canonical {n : Node} (h : Node.All Node.Printable n) : n.toJson.Canonical := by
  induction h with
  | @mk n here below ih =>
    cases n with
    | program p =>
      have hBody : ∀ s ∈ p.body, (document.stmt s).Canonical :=
        fun s hs => ih (.stmt s) (List.mem_map_of_mem hs)
      refine canonical_node ["body"] (by decide) rfl ?_ here.span
      simpa [stmts_eq] using canonical_map hBody
    | elif c =>
      have hCondition := ih (.expr c.condition) (by simp [children])
      have hBody := ih (.block c.body) (by simp [children])
      exact canonical_node ["condition", "body"] (by decide) rfl
        (by simpa using ⟨hCondition, hBody⟩) here.span
    | expr e => exact canonical_of_expr here ih
    | stmt s => exact canonical_of_stmt here ih

/-- The JSON of a document is canonical. -/
theorem Document.canonical {d : Document} (hAll : Node.All Node.Printable (.program d.program)) :
    d.toJson.Canonical := by
  have hNotes :
      (Json.object ((Json.arrange d.metadata).map fun m => (m.1, .string m.2))).Canonical := by
    refine Json.canonical_object (Json.arranged_arrange d.metadata).map fun m hm => ?_
    obtain ⟨note, -, rfl⟩ := List.mem_map.mp hm
    exact .string note.2
  have hProgram : (Spelling.document.program d.program).Canonical := hAll.canonical
  refine Json.canonical_object
    (Json.arranged_of_areWords ["format", "version", "metadata", "program"] (by decide) rfl) ?_
  simpa using ⟨.string documentFormat, Json.canonical_ofNat documentVersion, hNotes, hProgram⟩

end Tern
