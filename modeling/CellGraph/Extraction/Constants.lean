import CellGraph.Json.Printer
import CellGraph.Keyed
import CellGraph.Notebook.Basic
import CellGraph.Ast.Node

/-!
# Constants

Calls of `FileAttachment`, `Secret` and `DatabaseClient` ask for a resource of the notebook, named by
a literal first argument. The constants of a cell list these calls by name in the order of their
starts, and under each name the literals.
-/

namespace CellGraph.Extraction

open Ast

/-- The calls whose first argument is noted. -/
def resourceCalls : List String :=
  ["FileAttachment", "Secret", "DatabaseClient"]

/-- A call of a resource: where it starts, what is called, and the literal first argument. -/
structure ResourceCall where
  start : Nat
  callee : String
  argument : Option Json
deriving Repr

/-- The resource call that a node is, if it is one. -/
def ResourceCall.of? (node : Node) : Option ResourceCall := do
  guard (node.kind = .callExpression)
  let callee ← (node.field? "callee").bind Node.name?
  guard (callee ∈ resourceCalls)
  return {
    start := node.span.start
    callee
    argument := (node.list "arguments").head?.bind Node.literal?
  }

/-- The key of a literal: the text of a string, or any other value in compact form. -/
def literalKey : Json → String
  | .string s => s
  | other => other.compact

/-- Notes one call. -/
def noteCall (constants : Constants) (call : ResourceCall) : Constants :=
  Keyed.alter call.callee (fun known =>
    let literals := known.getD []
    match call.argument with
    | some value => Keyed.put (literalKey value) value literals
    | none => literals) constants

/-- The constants of a body, or none without a resource call. -/
def collectConstants (body : Node) : Option Constants :=
  match body.walk.filterMap ResourceCall.of? with
  | [] => none
  | calls => some ((calls.mergeSort fun a b => decide (a.start ≤ b.start)).foldl noteCall [])

end CellGraph.Extraction
