import CellGraph.Json.Basic

/-!
# Syntax nodes

A cell's syntax comes as a JSON tree. A *node* is an object whose field `type` is a string; it has a
range of byte offsets into the cell's text, and children: the nodes among its other fields and
among the items of the arrays there. Everything that is not a node is passed over.
-/

namespace CellGraph.Ast

/-- A range of byte offsets, from `start` up to `stop`. -/
structure Span where
  start : Nat
  stop : Nat
deriving DecidableEq, Repr

/-- The kinds of nodes that matter for a cell. -/
inductive Kind where
  | identifier
  | viewExpression
  | mutableExpression
  | callExpression
  | literal
  | blockStatement
  | importDeclaration
  | other
deriving DecidableEq, Repr

/-- The kind of a node, by the name of its type. -/
def Kind.ofName : String → Kind
  | "Identifier" => identifier
  | "ViewExpression" => viewExpression
  | "MutableExpression" => mutableExpression
  | "CallExpression" => callExpression
  | "Literal" => literal
  | "BlockStatement" => blockStatement
  | "ImportDeclaration" => importDeclaration
  | _ => other

/-- A node: the name of its type and all fields of the object. -/
structure Node where
  typeName : String
  fields : List (String × Json)
deriving Repr

/-- The node with the given fields, if their `type` is a string. -/
def Node.ofFields? (fields : List (String × Json)) : Option Node :=
  match fields.lookup "type" with
  | some (.string typeName) => some { typeName, fields }
  | _ => none

/-- The node that a value is, if it is one. -/
def Node.ofJson? : Json → Option Node
  | .object fields => ofFields? fields
  | _ => none

namespace Node

/-- The kind of the node. -/
def kind (n : Node) : Kind :=
  Kind.ofName n.typeName

/-- An offset field; anything but a natural number counts as zero. -/
def offset (n : Node) (key : String) : Nat :=
  ((n.fields.lookup key).bind Json.natural?).getD 0

/-- The range of the node in the cell's text. -/
def span (n : Node) : Span :=
  { start := n.offset "start", stop := n.offset "end" }

/-- The node in a field. -/
def field? (n : Node) (key : String) : Option Node :=
  (n.fields.lookup key).bind ofJson?

/-- The nodes in the array of a field. -/
def list (n : Node) (key : String) : List Node :=
  match n.fields.lookup key with
  | some (.array items) => items.filterMap ofJson?
  | _ => []

/-- The name of an identifier or the like. -/
def name? (n : Node) : Option String :=
  (n.fields.lookup "name").bind Json.string?

/-- Whether a field is `true`. -/
def flag (n : Node) (key : String) : Bool :=
  ((n.fields.lookup key).bind Json.bool?).getD false

/-- The value of a literal. -/
def literal? (n : Node) : Option Json :=
  if n.kind = .literal then n.fields.lookup "value" else none

/-- The name inside a view or mutable expression, or the node's own name. -/
def innerName? (n : Node) : Option String :=
  match n.kind with
  | .viewExpression | .mutableExpression => (n.field? "id").bind name?
  | _ => n.name?

end Node

/-! ## Traversal -/

mutual

/-- A value's node with all nodes below it, each before its children; nothing if it is no node. -/
def nodes : Json → List Node
  | .object fields =>
    match Node.ofFields? fields with
    | some node => node :: nodesInFields fields
    | none => []
  | _ => []

/-- The nodes in the fields of a node, its type aside. -/
def nodesInFields : List (String × Json) → List Node
  | [] => []
  | (key, .array items) :: fields =>
    (if key = "type" then [] else nodesInItems items) ++ nodesInFields fields
  | (key, value) :: fields =>
    (if key = "type" then [] else nodes value) ++ nodesInFields fields

/-- The nodes in the items of an array, and below them. -/
def nodesInItems : List Json → List Node
  | [] => []
  | item :: items => nodes item ++ nodesInItems items

end

/-- A node with all nodes below it, each before its children and in the order of the fields. -/
def Node.walk (n : Node) : List Node :=
  nodes (.object n.fields)

end CellGraph.Ast
