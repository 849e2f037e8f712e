import Tern.Document.Loader
import Tern.Proofs.Decimal.Count

/-!
# The shape of documents

Which JSON values stand for which trees, said without the loader. Each form of node has its type
and its parts, each under a key: a word, a text, a number, a truth value, a node, a row of nodes, or
a node that may be missing. A value has the shape of a node if it is an object with the type, in
which every part is found under its key, and the span if the node has one. What else is in the
object does not matter, nor in which order.

* `Node.fields` lists the parts of a node under their keys;
* `Json.Shaped`: a value has the shape of a node;
* `Json.IsDocument`: a value has the shape of a document;
* `Json.height` is how deep a value is nested.
-/

namespace Tern

/-! ## Parts -/

/-- A part of a node, as documents have it. A word is spelled as it is, and a text is what is shown
of a string. -/
inductive Part where
  | word (s : String)
  | text (s : String)
  | number (x : Float)
  | truth (b : Bool)
  | node (n : Node)
  | row (ns : List Node)
  | maybe (n : Option Node)

namespace Node

/-- The parts of an expression. -/
def fieldsOfExpr : Expr → List (String × Part)
  | .string v _ => [("value", .text v)]
  | .number v _ => [("value", .number v)]
  | .boolean v _ => [("value", .truth v)]
  | .null _ | .this _ => []
  | .array es _ => [("elements", .row (es.map expr))]
  | .name id => [("name", .text id.name)]
  | .super m _ => [("method", .node (ident m))]
  | .unary op e _ => [("operator", .word op.text), ("operand", .node (expr e))]
  | .binary op l r _ =>
    [("operator", .word op.text), ("left", .node (expr l)), ("right", .node (expr r))]
  | .logical op l r _ =>
    [("operator", .word op.text), ("left", .node (expr l)), ("right", .node (expr r))]
  | .call f args _ => [("callee", .node (expr f)), ("arguments", .row (args.map expr))]
  | .member o m _ => [("object", .node (expr o)), ("member", .node (ident m))]
  | .setMember o m v _ =>
    [("object", .node (expr o)), ("member", .node (ident m)), ("value", .node (expr v))]
  | .index o i _ => [("object", .node (expr o)), ("index", .node (expr i))]
  | .setIndex o i v _ =>
    [("object", .node (expr o)), ("index", .node (expr i)), ("value", .node (expr v))]
  | .assign t v _ => [("target", .node (ident t)), ("value", .node (expr v))]

/-- The parts of a simple statement. -/
def fieldsOfSimple : Simple → List (String × Part)
  | .var id v _ => [("id", .node (ident id)), ("initializer", .maybe (v.map expr))]
  | .const id v _ => [("id", .node (ident id)), ("initializer", .node (expr v))]
  | .expr e _ => [("expression", .node (expr e))]

/-- The parts of a statement. -/
def fieldsOfStmt : Stmt → List (String × Part)
  | .simple s => fieldsOfSimple s
  | .func f =>
    [("id", .node (ident f.id)), ("params", .row (f.params.map ident)),
      ("body", .node (block f.body))]
  | .cls c =>
    [("id", .node (ident c.id)), ("superclass", .maybe (c.superclass.map ident)),
      ("methods", .row (c.methods.map (stmt ∘ .func)))]
  | .block b => [("body", .row (b.body.map stmt))]
  | .ifElse c b elifs e _ =>
    [("ifCondition", .node (expr c)), ("ifBody", .node (block b)),
      ("elifClauses", .row (elifs.map elif)), ("elseBody", .maybe (e.map block))]
  | .whileLoop c b _ => [("condition", .node (expr c)), ("body", .node (block b))]
  | .forLoop i c u b _ =>
    [("initializer", .maybe (i.map (stmt ∘ .simple))), ("condition", .maybe (c.map expr)),
      ("update", .maybe (u.map expr)), ("body", .node (block b))]
  | .breakLoop _ | .continueLoop _ => []
  | .ret e _ => [("argument", .maybe (e.map expr))]
  | .tryCatch b p h _ =>
    [("tryBody", .node (block b)), ("catchParam", .node (ident p)), ("catchBody", .node (block h))]
  | .throw e _ => [("expression", .node (expr e))]

/-- The parts of a node under their keys. -/
def fields : Node → List (String × Part)
  | program p => [("body", .row (p.body.map stmt))]
  | stmt s => fieldsOfStmt s
  | elif c => [("condition", .node (expr c.condition)), ("body", .node (block c.body))]
  | expr e => fieldsOfExpr e

end Node

/-! ## Shapes -/

namespace Json

/-- A number that is whole and positive as a double. -/
def IsCount (raw : Option Json) (n : Nat) : Prop :=
  ∃ d, raw = some (.number d) ∧ Number.toInt? d.toFloat = some (n : Int) ∧ 0 < n

/-- An object with a line and a column. -/
def IsPosition (raw : Option Json) (p : Position) : Prop :=
  ∃ ms, raw = some (.object ms) ∧ IsCount (ms.lookup (.text "line")) p.line ∧
    IsCount (ms.lookup (.text "column")) p.column

/-- An object with a start and an end, or nothing if there is no span. -/
def IsSpan (raw : Option Json) : Option Span → Prop
  | none => raw = none
  | some s => ∃ ms, raw = some (.object ms) ∧ IsPosition (ms.lookup (.text "start")) s.start ∧
      IsPosition (ms.lookup (.text "end")) s.stop

mutual

/-- The value has the shape of the node. -/
inductive Shaped : Option Json → Node → Prop where
  | node {ms : List (Wide × Json)} {n : Node}
      (type : ms.lookup (.text "type") = some (.string n.kind))
      (fields : ∀ field ∈ n.fields, HasPart (ms.lookup (.text field.1)) field.2)
      (span : IsSpan (ms.lookup (.text "span")) n.span) : Shaped (some (.object ms)) n

/-- The value is the part. -/
inductive HasPart : Option Json → Part → Prop where
  | word (s : String) : HasPart (some (.string s)) (.word s)
  | text (w : Wide) : HasPart (some (.string w)) (.text w.shown)
  | number (d : Decimal) : HasPart (some (.number d)) (.number d.toFloat)
  | truth (b : Bool) : HasPart (some (.bool b)) (.truth b)
  | node {raw : Option Json} {n : Node} (shape : Shaped raw n) : HasPart raw (.node n)
  | row {items : List Json} {ns : List Node}
      (shapes : List.Forall₂ (fun j n => Shaped (some j) n) items ns) :
      HasPart (some (.array items)) (.row ns)
  | absent : HasPart none (.maybe none)
  | null : HasPart (some .null) (.maybe none)
  | present {raw : Option Json} {n : Node} (shape : Shaped raw n) : HasPart raw (.maybe (some n))

end

mutual

/-- How deep a value is nested. -/
def height : Json → Nat
  | .array items => heightOfItems items + 1
  | .object members => heightOfMembers members + 1
  | _ => 1

/-- How deep the items of an array are nested. -/
def heightOfItems : List Json → Nat
  | [] => 1
  | j :: rest => max j.height (heightOfItems rest)

/-- How deep the members of an object are nested. -/
def heightOfMembers : List (Wide × Json) → Nat
  | [] => 1
  | (_, j) :: rest => max j.height (heightOfMembers rest)

end

end Json

end Tern
