import CellGraph.Ast.Cell
import Mathlib.Logic.Relation

/-!
# Nodes of a tree

`walk` lists the nodes of a tree. Which nodes these are is said here by steps from a node to one directly
below it (`Node.Child`): the walk from a node has all that such steps lead to, and nothing else
(`Node.mem_walk_iff`).
-/

namespace CellGraph.Ast

/-- A node directly below another: it is a field of it, or an item of an array in a field. -/
inductive Node.Child (parent child : Node) : Prop
  | field {key : String} {value : Json} (mem : (key, value) ∈ parent.fields) (notType : key ≠ "type")
      (node : Node.ofJson? value = some child)
  | item {key : String} {items : List Json} {item : Json} (mem : (key, .array items) ∈ parent.fields)
      (notType : key ≠ "type") (memItems : item ∈ items) (node : Node.ofJson? item = some child)

/-- A node or one below it, at any depth. -/
def Node.Descends (root : Node) : Node → Prop :=
  Relation.ReflTransGen Node.Child root

/-- A node keeps the fields of the object that it was read from. -/
theorem Node.ofJson?_eq_some {value : Json} {node : Node} (h : Node.ofJson? value = some node) :
    value = .object node.fields ∧ Node.ofFields? node.fields = some node := by
  cases value with
  | object fields =>
      rw [Node.ofJson?, Node.ofFields?] at h
      split at h
      · rename_i typeName htype
        obtain rfl := Option.some.inj h
        refine ⟨rfl, ?_⟩
        rw [Node.ofFields?, htype]
      · cases h
  | _ => cases h

theorem nodes_of_ofJson? {value : Json} {node : Node} (h : Node.ofJson? value = some node) :
    nodes value = node :: nodesInFields node.fields := by
  obtain ⟨rfl, hnode⟩ := Node.ofJson?_eq_some h
  rw [nodes, hnode]

theorem mem_nodesInItems {items : List Json} {node : Node} :
    node ∈ nodesInItems items ↔ ∃ item ∈ items, node ∈ nodes item := by
  induction items with
  | nil => simp [nodesInItems]
  | cons item items ih => simp [nodesInItems, ih]

theorem mem_nodesInFields {fields : List (String × Json)} {node : Node} :
    node ∈ nodesInFields fields ↔ ∃ key value, (key, value) ∈ fields ∧ key ≠ "type" ∧
      (node ∈ nodes value ∨ ∃ items, value = .array items ∧ ∃ item ∈ items, node ∈ nodes item) := by
  induction fields with
  | nil => simp [nodesInFields]
  | cons field fields ih =>
      obtain ⟨key, value⟩ := field
      have hfield : node ∈ nodesInFields ((key, value) :: fields) ↔
          (key ≠ "type" ∧
            (node ∈ nodes value ∨ ∃ items, value = .array items ∧ ∃ item ∈ items, node ∈ nodes item)) ∨
          node ∈ nodesInFields fields := by
        by_cases hkey : key = "type"
        · cases value <;> simp [nodesInFields, hkey]
        · cases value <;> simp [nodesInFields, hkey, nodes, mem_nodesInItems]
      rw [hfield, ih]
      constructor
      · rintro (⟨hkey, hvalue⟩ | ⟨key', value', hmem, hrest⟩)
        · exact ⟨key, value, List.mem_cons_self, hkey, hvalue⟩
        · exact ⟨key', value', List.mem_cons_of_mem _ hmem, hrest⟩
      · rintro ⟨key', value', hmem, hrest⟩
        rcases List.mem_cons.mp hmem with heq | hmem
        · obtain ⟨rfl, rfl⟩ := Prod.mk.inj heq
          exact .inl hrest
        · exact .inr ⟨key', value', hmem, hrest⟩

theorem sizeOf_lt_of_mem_fields {fields : List (String × Json)} {key : String} {value : Json}
    (h : (key, value) ∈ fields) : sizeOf value < sizeOf (Json.object fields) := by
  have hlt := List.sizeOf_lt_of_mem h
  simp only [Prod.mk.sizeOf_spec] at hlt
  simp only [Json.object.sizeOf_spec]
  omega

theorem descends_of_mem_nodes {value : Json} {node : Node} (h : node ∈ nodes value) :
    ∃ root, Node.ofJson? value = some root ∧ root.Descends node := by
  rcases hroot : Node.ofJson? value with _ | root
  · cases value with
    | object fields =>
        rw [Node.ofJson?] at hroot
        rw [nodes, hroot] at h
        cases h
    | _ => cases h
  refine ⟨root, rfl, ?_⟩
  rw [nodes_of_ofJson? hroot] at h
  rcases List.mem_cons.mp h with rfl | hbelow
  · exact .refl
  obtain ⟨key, inner, hmem, hkey, hinner⟩ := mem_nodesInFields.mp hbelow
  have hsmaller : sizeOf inner < sizeOf value := by
    rw [(Node.ofJson?_eq_some hroot).1]
    exact sizeOf_lt_of_mem_fields hmem
  rcases hinner with hinner | ⟨items, rfl, item, hitem, hinner⟩
  · obtain ⟨child, hchild, hdescends⟩ := descends_of_mem_nodes hinner
    exact .head (.field hmem hkey hchild) hdescends
  · have hitems : sizeOf item < sizeOf (Json.array items) := by
      have hlt := List.sizeOf_lt_of_mem hitem
      simp only [Json.array.sizeOf_spec]
      omega
    obtain ⟨child, hchild, hdescends⟩ := descends_of_mem_nodes hinner
    exact .head (.item hmem hkey hitem hchild) hdescends
termination_by sizeOf value
decreasing_by
  · exact hsmaller
  · exact Nat.lt_trans hitems hsmaller

/-- The walk from a node lists the node and what is below it. -/
theorem Node.mem_walk_iff {root node : Node} (h : Node.ofFields? root.fields = some root) :
    node ∈ root.walk ↔ root.Descends node := by
  constructor
  · intro hmem
    obtain ⟨top, htop, hdescends⟩ := descends_of_mem_nodes hmem
    obtain rfl := Option.some.inj (h.symm.trans htop)
    exact hdescends
  · intro hdescends
    induction hdescends using Relation.ReflTransGen.head_induction_on with
    | refl =>
        rw [walk, nodes, h]
        exact List.mem_cons_self
    | head hchild _ ih =>
        rw [walk, nodes, h]
        refine List.mem_cons_of_mem _ (mem_nodesInFields.mpr ?_)
        cases hchild with
        | field hmem hkey hnode =>
            obtain ⟨rfl, hfields⟩ := Node.ofJson?_eq_some hnode
            exact ⟨_, _, hmem, hkey, .inl (ih hfields)⟩
        | item hmem hkey hitem hnode =>
            obtain ⟨rfl, hfields⟩ := Node.ofJson?_eq_some hnode
            exact ⟨_, _, hmem, hkey, .inr ⟨_, rfl, _, hitem, ih hfields⟩⟩

/-- The body of a cell is read from an object. -/
theorem ofFields?_of_body {p : ParsedCell} {body : Node} (h : p.body = .ok body) :
    Node.ofFields? body.fields = some body := by
  rw [ParsedCell.body] at h
  split at h
  · rename_i node hnode
    obtain rfl := Except.ok.inj h
    exact (Node.ofJson?_eq_some hnode).2
  · cases h

end CellGraph.Ast
