import Tern.Document.Writer
import Tern.Json.Reader

/-!
# Reading documents

The inverse of writing. Every node is read by its `type`; the parts that its form needs must be
there and have the right shape, parts that may be missing may also be `null`, and anything
else in an object is passed over. Parts are read in the order in which they are written, the
span last. Keys, types, operators and notes are taken unit by unit; a name or a literal of the
tree is what is shown of its string.

The loader goes at most `depth` nodes deep.

* `LoadError.message` words what is wrong and where;
* `Document.load` reads a text.
-/

namespace Tern

/-! ## Places and errors -/

/-- A step from a JSON value to a part of it. -/
inductive PlaceStep where
  | field (name : String)
  | item (index : Nat)
deriving DecidableEq, Repr

/-- A part of a document: where the path starts and the steps from there, the last first. -/
structure Place where
  root : String
  steps : List PlaceStep
deriving DecidableEq, Repr

namespace Place

/-- A place without steps. -/
def start (root : String) : Place := ⟨root, []⟩

/-- A field of the value at a place. -/
def field (p : Place) (name : String) : Place := { p with steps := .field name :: p.steps }

/-- An item of the array at a place. -/
def item (p : Place) (i : Nat) : Place := { p with steps := .item i :: p.steps }

/-- How a step is written. -/
def stepText : PlaceStep → String
  | .field name => "." ++ name
  | .item i => "[" ++ toString i ++ "]"

/-- How a place is written. -/
def text (p : Place) : String :=
  p.root ++ String.join (p.steps.reverse.map stepText)

end Place

/-- What is wrong with a document. -/
inductive LoadError where
  | invalidJson
  | unsupportedFormat (found : Option Json)
  | unsupportedVersion (found : Option Json)
  | notObject (place : Place)
  | notArray (place : Place)
  | notString (place : Place)
  | notNumber (place : Place)
  | notBoolean (place : Place)
  | untyped (place : Place)
  | mismatch (place : Place) (expected found : String)
  | unknownStatement (place : Place) (kind : String)
  | unknownExpression (place : Place) (kind : String)
  | badOperator (place : Place) (allowed : List String)
  | badForStart (place : Place) (kind : String)
  | badPosition (place : Place)
  | tooDeep

mutual

/-- A value as it is kept once its numbers are doubles; what is not finite becomes `null`. -/
def Json.settle : Json → Json
  | .number d => Spelling.document.number d.toFloat
  | .array items => .array (Json.settleAll items)
  | .object members => .object (Json.settleMembers members)
  | other => other

/-- The items of an array, settled. -/
def Json.settleAll : List Json → List Json
  | [] => []
  | j :: rest => j.settle :: Json.settleAll rest

/-- The members of an object, settled. -/
def Json.settleMembers : List (Wide × Json) → List (Wide × Json)
  | [] => []
  | (key, j) :: rest => (key, j.settle) :: Json.settleMembers rest

end

namespace LoadError

/-- How an unexpected value is shown. -/
def shown : Option Json → String
  | some j => j.settle.compact
  | none => "undefined"

/-- The message of a load error. -/
def message : LoadError → String
  | invalidJson => "invalid JSON"
  | unsupportedFormat found =>
    "unsupported format " ++ shown found ++ "; expected \"" ++ documentFormat ++ "\""
  | unsupportedVersion found =>
    "unsupported version " ++ shown found ++ "; expected " ++ toString documentVersion
  | notObject p => p.text ++ ": expected an object"
  | notArray p => p.text ++ ": expected an array"
  | notString p => p.text ++ ": expected a string"
  | notNumber p => p.text ++ ": expected a number"
  | notBoolean p => p.text ++ ": expected a boolean"
  | untyped p => p.text ++ ": node has no \"type\""
  | mismatch p expected found => p.text ++ ": expected " ++ expected ++ " but found " ++ found
  | unknownStatement p kind => p.text ++ ": unknown statement type \"" ++ kind ++ "\""
  | unknownExpression p kind => p.text ++ ": unknown expression type \"" ++ kind ++ "\""
  | badOperator p allowed => p.text ++ ": expected one of " ++ " ".intercalate allowed
  | badForStart p kind => p.text ++ ": " ++ kind ++ " cannot initialise a for loop"
  | badPosition p => p.text ++ ": line and column must be positive integers"
  | tooDeep => "program is nested too deeply to load"

end LoadError

/-! ## Shapes -/

/-- The result of reading a part of a document. -/
abbrev Load (α : Type) := Except LoadError α

namespace Load

/-- The members of an object. -/
def members (place : Place) : Option Json → Load (List (Wide × Json))
  | some (.object ms) => .ok ms
  | _ => .error (.notObject place)

/-- A string. -/
def string (place : Place) : Option Json → Load Wide
  | some (.string s) => .ok s
  | _ => .error (.notString place)

/-- A number. -/
def number (place : Place) : Option Json → Load Float
  | some (.number d) => .ok d.toFloat
  | _ => .error (.notNumber place)

/-- A truth value. -/
def boolean (place : Place) : Option Json → Load Bool
  | some (.bool b) => .ok b
  | _ => .error (.notBoolean place)

/-- The operator with a given text. -/
def operator {α : Type} (place : Place) (allowed : List α) (text : α → String)
    (raw : Option Json) : Load α :=
  let found := match raw with
    | some (.string (.text s)) => allowed.find? fun op => text op == s
    | _ => none
  match found with
  | some op => .ok op
  | none => .error (.badOperator place (allowed.map text))

/-- Reads items one after another, counting from `i`. -/
def itemsFrom {α : Type} (place : Place) (read : Place → Option Json → Load α) :
    Nat → List Json → Load (List α)
  | _, [] => .ok []
  | i, j :: rest => do
    let a ← read (place.item i) (some j)
    let as ← itemsFrom place read (i + 1) rest
    pure (a :: as)

/-- An array. -/
def list {α : Type} (place : Place) (read : Place → Option Json → Load α) :
    Option Json → Load (List α)
  | some (.array items) => itemsFrom place read 0 items
  | _ => .error (.notArray place)

/-- A part that may be missing. -/
def optional {α : Type} (place : Place) (read : Place → Option Json → Load α)
    (raw : Option Json) : Load (Option α) :=
  match raw with
  | none | some .null => .ok none
  | some j => some <$> read place (some j)

/-! ## Nodes -/

/-- A node: its form and its parts. -/
structure RawNode where
  kind : Wide
  members : List (Wide × Json)

/-- A part of a node. -/
def RawNode.get? (n : RawNode) (name : String) : Option Json :=
  n.members.lookup (.text name)

/-- An object with a form. -/
def node (place : Place) (raw : Option Json) : Load RawNode := do
  let ms ← members place raw
  match ms.lookup (.text "type") with
  | some (.string kind) => pure ⟨kind, ms⟩
  | _ => throw (.untyped place)

/-- A node that must be of one form. -/
def nodeOf (kind : String) (place : Place) (raw : Option Json) : Load RawNode := do
  let n ← node place raw
  if n.kind = kind then pure n else throw (.mismatch place kind n.kind.shown)

/-- A line or a column. -/
def count? : Option Json → Option Nat
  | some (.number d) => d.toCount?
  | _ => none

/-- A position. -/
def position (place : Place) (raw : Option Json) : Load Position := do
  let ms ← members place raw
  match count? (ms.lookup (.text "line")), count? (ms.lookup (.text "column")) with
  | some line, some column => pure ⟨line, column⟩
  | _, _ => throw (.badPosition place)

/-- The span of a node, which may be missing. -/
def span (n : RawNode) : Load (Option Span) :=
  match n.get? "span" with
  | none => pure none
  | some raw => do
    let place := (Place.start n.kind.shown).field "span"
    let ms ← members place (some raw)
    let start ← position (place.field "start") (ms.lookup (.text "start"))
    let stop ← position (place.field "end") (ms.lookup (.text "end"))
    pure (some ⟨start, stop⟩)

/-- An identifier. -/
def ident (place : Place) (raw : Option Json) : Load Ident := do
  let n ← nodeOf "Identifier" place raw
  let name ← string (place.field "name") (n.get? "name")
  pure ⟨name.shown, ← span n⟩

/-! ## Expressions -/

/-- An expression. -/
def expr : Nat → Place → Option Json → Load Expr
  | 0, _, _ => throw .tooDeep
  | depth + 1, place, raw => do
    let n ← node place raw
    let part (name : String) : Load Expr := expr depth (place.field name) (n.get? name)
    let name (key : String) : Load Ident := ident (place.field key) (n.get? key)
    match n.kind with
    | .text "Identifier" => pure (.name (← ident place raw))
    | .text "StringLiteral" =>
      let value ← string (place.field "value") (n.get? "value")
      pure (.string value.shown (← span n))
    | .text "NumberLiteral" =>
      let value ← number (place.field "value") (n.get? "value")
      pure (.number value (← span n))
    | .text "BooleanLiteral" =>
      let value ← boolean (place.field "value") (n.get? "value")
      pure (.boolean value (← span n))
    | .text "NullLiteral" => pure (.null (← span n))
    | .text "ArrayLiteral" =>
      let elements ← list (place.field "elements") (expr depth) (n.get? "elements")
      pure (.array elements (← span n))
    | .text "ThisExpression" => pure (.this (← span n))
    | .text "SuperExpression" =>
      let method ← name "method"
      pure (.super method (← span n))
    | .text "UnaryExpression" =>
      let op ← operator (place.field "operator") UnaryOp.all UnaryOp.text (n.get? "operator")
      let operand ← part "operand"
      pure (.unary op operand (← span n))
    | .text "BinaryExpression" =>
      let op ← operator (place.field "operator") BinaryOp.all BinaryOp.text (n.get? "operator")
      let left ← part "left"
      let right ← part "right"
      pure (.binary op left right (← span n))
    | .text "LogicalExpression" =>
      let op ← operator (place.field "operator") LogicalOp.all LogicalOp.text (n.get? "operator")
      let left ← part "left"
      let right ← part "right"
      pure (.logical op left right (← span n))
    | .text "FunctionCall" =>
      let callee ← part "callee"
      let args ← list (place.field "arguments") (expr depth) (n.get? "arguments")
      pure (.call callee args (← span n))
    | .text "MemberAccessExpression" =>
      let object ← part "object"
      let member ← name "member"
      pure (.member object member (← span n))
    | .text "MemberAssignmentExpression" =>
      let object ← part "object"
      let member ← name "member"
      let value ← part "value"
      pure (.setMember object member value (← span n))
    | .text "IndexExpression" =>
      let object ← part "object"
      let index ← part "index"
      pure (.index object index (← span n))
    | .text "IndexAssignmentExpression" =>
      let object ← part "object"
      let index ← part "index"
      let value ← part "value"
      pure (.setIndex object index value (← span n))
    | .text "AssignmentExpression" =>
      let target ← name "target"
      let value ← part "value"
      pure (.assign target value (← span n))
    | kind => throw (.unknownExpression place kind.shown)

/-! ## Statements -/

/-- A statement that starts a `for` loop. -/
def forStart (read : Place → Option Json → Load Stmt) (place : Place) (raw : Option Json) :
    Load Simple := do
  match ← read place raw with
  | .simple s => pure s
  | other => throw (.badForStart place other.kind)

mutual

/-- A statement. -/
def stmt : Nat → Place → Option Json → Load Stmt
  | 0, _, _ => throw .tooDeep
  | depth + 1, place, raw => do
    let n ← node place raw
    let part (name : String) : Load Expr := expr depth (place.field name) (n.get? name)
    let maybe (name : String) : Load (Option Expr) :=
      optional (place.field name) (expr depth) (n.get? name)
    let name (key : String) : Load Ident := ident (place.field key) (n.get? key)
    let body (key : String) : Load Block := block depth (place.field key) (n.get? key)
    match n.kind with
    | .text "VarDeclaration" =>
      let id ← name "id"
      let value ← maybe "initializer"
      pure (.simple (.var id value (← span n)))
    | .text "ConstDeclaration" =>
      let id ← name "id"
      let value ← part "initializer"
      pure (.simple (.const id value (← span n)))
    | .text "FunctionDefinition" => pure (.func (← funcDef depth place raw))
    | .text "ClassDefinition" =>
      let id ← name "id"
      let methods ← list (place.field "methods") (funcDef depth) (n.get? "methods")
      let parent ← optional (place.field "superclass") ident (n.get? "superclass")
      pure (.cls ⟨id, parent, methods, ← span n⟩)
    | .text "BlockStatement" => pure (.block (← block depth place raw))
    | .text "IfStatement" =>
      let condition ← part "ifCondition"
      let then_ ← body "ifBody"
      let elifs ← list (place.field "elifClauses") (elifClause depth) (n.get? "elifClauses")
      let otherwise ← optional (place.field "elseBody") (block depth) (n.get? "elseBody")
      pure (.ifElse condition then_ elifs otherwise (← span n))
    | .text "WhileLoop" =>
      let condition ← part "condition"
      let body ← body "body"
      pure (.whileLoop condition body (← span n))
    | .text "ForLoop" =>
      let start ←
        optional (place.field "initializer") (forStart (stmt depth)) (n.get? "initializer")
      let condition ← maybe "condition"
      let update ← maybe "update"
      let body ← body "body"
      pure (.forLoop start condition update body (← span n))
    | .text "BreakStatement" => pure (.breakLoop (← span n))
    | .text "ContinueStatement" => pure (.continueLoop (← span n))
    | .text "ReturnStatement" =>
      let argument ← maybe "argument"
      pure (.ret argument (← span n))
    | .text "TryStatement" =>
      let tried ← body "tryBody"
      let param ← name "catchParam"
      let handler ← body "catchBody"
      pure (.tryCatch tried param handler (← span n))
    | .text "ThrowStatement" =>
      let value ← part "expression"
      pure (.throw value (← span n))
    | .text "ExpressionStatement" =>
      let value ← part "expression"
      pure (.simple (.expr value (← span n)))
    | kind => throw (.unknownStatement place kind.shown)

/-- A block. -/
def block : Nat → Place → Option Json → Load Block
  | 0, _, _ => throw .tooDeep
  | depth + 1, place, raw => do
    let n ← nodeOf "BlockStatement" place raw
    let body ← list (place.field "body") (stmt depth) (n.get? "body")
    pure ⟨body, ← span n⟩

/-- A function definition. -/
def funcDef : Nat → Place → Option Json → Load FuncDef
  | 0, _, _ => throw .tooDeep
  | depth + 1, place, raw => do
    let n ← nodeOf "FunctionDefinition" place raw
    let id ← ident (place.field "id") (n.get? "id")
    let params ← list (place.field "params") ident (n.get? "params")
    let body ← block depth (place.field "body") (n.get? "body")
    pure ⟨id, params, body, ← span n⟩

/-- An `elif` arm. -/
def elifClause : Nat → Place → Option Json → Load ElifClause
  | 0, _, _ => throw .tooDeep
  | depth + 1, place, raw => do
    let n ← nodeOf "ElifClause" place raw
    let condition ← expr depth (place.field "condition") (n.get? "condition")
    let body ← block depth (place.field "body") (n.get? "body")
    pure ⟨condition, body, ← span n⟩

end

/-- A program. -/
def program (depth : Nat) (raw : Option Json) : Load Program := do
  let n ← nodeOf "Program" (.start "program") raw
  let body ← list ((Place.start "Program").field "body") (stmt depth) (n.get? "body")
  pure ⟨body, ← span n⟩

/-! ## Documents -/

/-- The key that metadata may have but does not keep. -/
def reservedKey : Wide := "__proto__"

/-- The notes of a document. -/
def metadata : List (Wide × Json) → Load (List (Wide × Wide))
  | [] => pure []
  | (key, raw) :: rest => do
    let value ← string ((Place.start "metadata").field key.shown) (some raw)
    let others ← metadata rest
    pure (if key = reservedKey then others else (key, value) :: others)

/-- The format of a document. -/
def checkFormat (raw : Option Json) : Load Unit :=
  match raw with
  | some (.string s) => if s = .text documentFormat then pure () else throw (.unsupportedFormat raw)
  | _ => throw (.unsupportedFormat raw)

/-- The version of a document. -/
def checkVersion (raw : Option Json) : Load Unit :=
  match raw with
  | some (.number d) =>
    if d.toFloat == Float.ofNat documentVersion then pure () else throw (.unsupportedVersion raw)
  | _ => throw (.unsupportedVersion raw)

/-- A document given as JSON. -/
def document (depth : Nat) (raw : Json) : Load Document := do
  let ms ← members (.start "document") (some raw)
  checkFormat (ms.lookup (.text "format"))
  checkVersion (ms.lookup (.text "version"))
  let notes ← match ms.lookup (.text "metadata") with
    | none => pure []
    | some raw => do metadata (← members (.start "metadata") (some raw))
  let p ← program depth (ms.lookup (.text "program"))
  pure ⟨notes, p⟩

end Load

/-- How many nodes deep documents may go. -/
def Document.maxDepth : Nat := 4000

/-- The document that a text spells. -/
def Document.load (text : String) : Except LoadError Document :=
  match Json.parse? text with
  | some j => Load.document Document.maxDepth j
  | none => .error .invalidJson

end Tern
