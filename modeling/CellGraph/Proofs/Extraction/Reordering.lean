import CellGraph.Proofs.Ast
import CellGraph.Proofs.Extraction.Constants

/-!
# Constants and the order of items

The order of the source is read off the starts of the calls, so the order in which arrays list their items does
not matter to the constants, as long as no two calls start together. `Reorders` puts the items of one array of
a tree in another order, anywhere but among the arguments of a call and inside a literal. What is read of a value
on the way stays the same (`Reorders.readsAlike`), hence the resource calls do, up to their order
(`Reorders.sameCalls`).
-/

namespace CellGraph

namespace Ast

/-! ## Fields and items of a tree -/

theorem Node.ofFields?_eq (fields : List (String × Json)) :
    Node.ofFields? fields =
      ((fields.lookup "type").bind Json.string?).map fun typeName => { typeName, fields } := by
  unfold Node.ofFields?
  split
  · next htype => rw [htype]; rfl
  · next hother =>
      rcases htype : fields.lookup "type" with _ | value
      · rfl
      · cases value with
        | string typeName => exact absurd htype (hother typeName)
        | _ => rfl

theorem nodesInFields_cons (key : String) (value : Json) (fields : List (String × Json)) :
    nodesInFields ((key, value) :: fields) =
      (if key = "type" then [] else nodes value ++ nodesInItems (value.array?.getD [])) ++
        nodesInFields fields := by
  cases value <;> simp [nodesInFields, nodes, nodesInItems, Json.array?]

theorem nodesInFields_append (fields fields' : List (String × Json)) :
    nodesInFields (fields ++ fields') = nodesInFields fields ++ nodesInFields fields' := by
  induction fields with
  | nil => rfl
  | cons field fields ih =>
      obtain ⟨key, value⟩ := field
      rw [List.cons_append, nodesInFields_cons, nodesInFields_cons, ih, List.append_assoc]

theorem nodesInItems_eq_flatMap (items : List Json) : nodesInItems items = items.flatMap nodes := by
  induction items with
  | nil => rfl
  | cons item items ih => rw [nodesInItems, ih, List.flatMap_cons]

end Ast

namespace Extraction

open Ast

/-! ## Another order -/

/-- The fields of an object that is no literal. -/
def NoLiteral (fields : List (String × Json)) : Prop :=
  ∀ node, Node.ofFields? fields = some node → node.typeName ≠ "Literal"

/-- Puts the items of one array in another order: an array in a field of a node, but not the arguments of a call
and nothing inside a literal. -/
inductive Reorders : Json → Json → Prop
  | items {front back : List (String × Json)} {key : String} {items items' : List Json}
      (isNode : (Node.ofFields? (front ++ (key, .array items) :: back)).isSome)
      (noLiteral : NoLiteral (front ++ (key, .array items) :: back)) (notArguments : key ≠ "arguments")
      (perm : items.Perm items') :
      Reorders (.object (front ++ (key, .array items) :: back)) (.object (front ++ (key, .array items') :: back))
  | field {front back : List (String × Json)} {key : String} {value value' : Json}
      (noLiteral : NoLiteral (front ++ (key, value) :: back)) (reorders : Reorders value value') :
      Reorders (.object (front ++ (key, value) :: back)) (.object (front ++ (key, value') :: back))
  | item {front back : List Json} {item item' : Json} (reorders : Reorders item item') :
      Reorders (.array (front ++ item :: back)) (.array (front ++ item' :: back))

/-! ## What is read on the way -/

/-- Values of which the same is read, their items aside. -/
structure ReadsAlike (value value' : Json) : Prop where
  string : value.string? = value'.string?
  natural : value.natural? = value'.natural?
  isNode : (Node.ofJson? value).isSome = (Node.ofJson? value').isSome
  name : (Node.ofJson? value).bind Node.name? = (Node.ofJson? value').bind Node.name?
  literal : (Node.ofJson? value).bind literalOf? = (Node.ofJson? value').bind literalOf?
  call : (Node.ofJson? value).bind ResourceCall.of? = (Node.ofJson? value').bind ResourceCall.of?

theorem readsAlike_array (items items' : List Json) : ReadsAlike (.array items) (.array items') where
  string := rfl
  natural := rfl
  isNode := rfl
  name := rfl
  literal := rfl
  call := rfl

section

variable {front back : List (String × Json)} {key : String} {value value' : Json}

/-- A field whose value is replaced is read alike under every key, if the two values are. -/
theorem bind_lookup_replace (front back : List (String × Json)) (key : String) {α : Type}
    {read : Json → Option α} (other : String) (h : key ≠ other ∨ read value = read value') :
    ((front ++ (key, value) :: back).lookup other).bind read =
      ((front ++ (key, value') :: back).lookup other).bind read := by
  -- only the first field of a name counts, so one in front may hide the one that is replaced
  induction front with
  | nil =>
      rw [List.nil_append, List.nil_append, Keyed.lookup_cons, Keyed.lookup_cons]
      by_cases hother : other = key
      · rw [if_pos hother, if_pos hother]
        exact h.resolve_left fun hne => hne hother.symm
      · rw [if_neg hother, if_neg hother]
  | cons field front ih =>
      rw [List.cons_append, List.cons_append, Keyed.lookup_cons, Keyed.lookup_cons]
      by_cases hother : other = field.1
      · rw [if_pos hother, if_pos hother]
      · rw [if_neg hother, if_neg hother]
        exact ih

theorem of?_congr {node node' : Node} (htype : node.typeName = node'.typeName)
    (hcallee : callee? node = callee? node') (hargument : argument? node = argument? node')
    (hstart : node.span.start = node'.span.start) :
    ResourceCall.of? node = ResourceCall.of? node' := by
  have hcall : IsResourceCall node ↔ IsResourceCall node' := by
    rw [IsResourceCall, IsResourceCall, htype, hcallee]
  have hrecord : record node = record node' := by
    rw [record, record, hcallee, hargument, hstart]
  rw [of?_eq, of?_eq, hrecord]
  simp only [hcall]

/-- An object that is no literal is read alike if one of its values is. -/
theorem readsAlike_object (h : ReadsAlike value value')
    (hargument : key ≠ "arguments" ∨ firstLiteral? value = firstLiteral? value')
    (hliteral : NoLiteral (front ++ (key, value) :: back)) :
    ReadsAlike (.object (front ++ (key, value) :: back)) (.object (front ++ (key, value') :: back)) := by
  have htype := bind_lookup_replace front back key "type" (.inr h.string)
  have hnode := Node.ofFields?_eq (front ++ (key, value) :: back)
  have hnode' := Node.ofFields?_eq (front ++ (key, value') :: back)
  rw [← htype] at hnode'
  rcases htypeName : ((front ++ (key, value) :: back).lookup "type").bind Json.string? with _ | typeName
  · -- neither object is a node, so that nothing is read of them
    rw [htypeName, Option.map_none] at hnode hnode'
    constructor <;> simp [Json.string?, Json.natural?, Node.ofJson?, hnode, hnode']
  · rw [htypeName, Option.map_some] at hnode hnode'
    have hother : typeName ≠ "Literal" := hliteral _ hnode
    have hcall : ResourceCall.of? { typeName, fields := front ++ (key, value) :: back } =
        ResourceCall.of? { typeName, fields := front ++ (key, value') :: back } := by
      refine of?_congr rfl ?_ ?_ ?_
      · exact bind_lookup_replace front back key "callee" (.inr h.name)
      · exact bind_lookup_replace front back key "arguments" hargument
      · exact congrArg (·.getD 0) (bind_lookup_replace front back key "start" (.inr h.natural))
    constructor
    case string => rfl
    case natural => rfl
    case isNode => simp [Node.ofJson?, hnode, hnode']
    case name =>
        rw [Node.ofJson?, Node.ofJson?, hnode, hnode']
        exact bind_lookup_replace front back key "name" (.inr h.string)
    case literal => simp [Node.ofJson?, hnode, hnode', literalOf?, hother]
    case call =>
        rw [Node.ofJson?, Node.ofJson?, hnode, hnode']
        exact hcall

end

/-- Replacing an item by one that is read alike leaves the first literal as it is. -/
theorem firstLiteral?_replace (front back : List Json) {item item' : Json} (h : ReadsAlike item item') :
    firstLiteral? (.array (front ++ item :: back)) = firstLiteral? (.array (front ++ item' :: back)) := by
  simp only [firstLiteral?, Json.array?, Option.getD_some, List.filterMap_append, List.head?_append]
  rcases (front.filterMap Node.ofJson?).head? with _ | first
  · rcases hitem : Node.ofJson? item with _ | node
    · have hitem' : Node.ofJson? item' = none := by
        simpa [hitem] using h.isNode.symm
      rw [List.filterMap_cons_none hitem, List.filterMap_cons_none hitem']
    · have hsome : (Node.ofJson? item').isSome := by
        rw [← h.isNode, hitem]
        rfl
      obtain ⟨node', hitem'⟩ := Option.isSome_iff_exists.mp hsome
      have hliteral := h.literal
      rw [hitem, hitem'] at hliteral
      rw [List.filterMap_cons_some hitem, List.filterMap_cons_some hitem']
      simpa using hliteral
  · rfl

/-- What is read of a tree on the way does not depend on the order of items. -/
theorem Reorders.readsAlike {value value' : Json} (h : Reorders value value') :
    ReadsAlike value value' ∧ firstLiteral? value = firstLiteral? value' := by
  induction h with
  | items _ hliteral hkey _ => exact ⟨readsAlike_object (readsAlike_array _ _) (.inl hkey) hliteral, rfl⟩
  | field hliteral _ ih => exact ⟨readsAlike_object ih.1 (.inr ih.2) hliteral, rfl⟩
  | item _ ih => exact ⟨readsAlike_array _ _, firstLiteral?_replace _ _ ih.1⟩

/-! ## The calls of a tree -/

/-- The resource calls among the nodes of a value. -/
def callsIn (value : Json) : List ResourceCall :=
  (nodes value).filterMap ResourceCall.of?

/-- The resource calls among the nodes of items. -/
def callsInItems (items : List Json) : List ResourceCall :=
  items.flatMap callsIn

theorem filterMap_nodesInItems (items : List Json) :
    (nodesInItems items).filterMap ResourceCall.of? = callsInItems items := by
  rw [nodesInItems_eq_flatMap, List.filterMap_flatMap, callsInItems]
  rfl

/-- The calls in a node are the node itself, if it is one, and those in its fields. -/
theorem callsIn_object (fields : List (String × Json)) :
    callsIn (.object fields) = if (Node.ofJson? (.object fields)).isSome then
      ((Node.ofJson? (.object fields)).bind ResourceCall.of?).toList ++
        (nodesInFields fields).filterMap ResourceCall.of? else [] := by
  rw [callsIn, nodes, Node.ofJson?]
  rcases Node.ofFields? fields with _ | node
  · rfl
  · rcases hcall : ResourceCall.of? node with _ | call <;> simp [hcall]

/-- Values with the same resource calls, in one order or another. -/
structure SameCalls (value value' : Json) : Prop where
  own : (callsIn value).Perm (callsIn value')
  items : (callsInItems (value.array?.getD [])).Perm (callsInItems (value'.array?.getD []))

theorem sameCalls_items {items items' : List Json} (h : (callsInItems items).Perm (callsInItems items')) :
    SameCalls (.array items) (.array items') where
  own := .refl _
  items := h

/-- An object has the same calls if one of its values has. -/
theorem sameCalls_object {front back : List (String × Json)} {key : String} {value value' : Json}
    (hreads : ReadsAlike (.object (front ++ (key, value) :: back)) (.object (front ++ (key, value') :: back)))
    (h : SameCalls value value') :
    SameCalls (.object (front ++ (key, value) :: back)) (.object (front ++ (key, value') :: back)) where
  own := by
    rw [callsIn_object, callsIn_object, ← hreads.isNode, ← hreads.call]
    split
    · refine List.Perm.append_left _ ?_
      rw [nodesInFields_append, nodesInFields_append, nodesInFields_cons, nodesInFields_cons]
      simp only [List.filterMap_append]
      -- the fields in front and behind have the calls that they had, in their places
      refine List.Perm.append_left _ (List.Perm.append_right _ ?_)
      split
      · exact .refl _
      · rw [List.filterMap_append, List.filterMap_append, filterMap_nodesInItems, filterMap_nodesInItems]
        exact h.own.append h.items
    · exact .refl _
  items := .refl _

/-- Reordering moves resource calls about and does nothing else to them. -/
theorem Reorders.sameCalls {value value' : Json} (h : Reorders value value') : SameCalls value value' := by
  induction h with
  | items hnode hliteral hkey hperm =>
      exact sameCalls_object (Reorders.items hnode hliteral hkey hperm).readsAlike.1
        (sameCalls_items (hperm.flatMap_right _))
  | field hliteral hvalue ih => exact sameCalls_object (Reorders.field hliteral hvalue).readsAlike.1 ih
  | item _ ih =>
      refine sameCalls_items ?_
      rw [callsInItems, callsInItems, List.flatMap_append, List.flatMap_append, List.flatMap_cons,
        List.flatMap_cons]
      exact List.Perm.append_left _ (ih.own.append_right _)

/-- So does any number of reorderings, of a tree that is a node. -/
theorem callsIn_perm_of_reorders {tree tree' : Json} (h : Relation.ReflTransGen Reorders tree tree') :
    (callsIn tree).Perm (callsIn tree') ∧ (Node.ofJson? tree).isSome = (Node.ofJson? tree').isSome := by
  induction h with
  | refl => exact ⟨.refl _, rfl⟩
  | tail _ hstep ih => exact ⟨ih.1.trans hstep.sameCalls.own, ih.2.trans hstep.readsAlike.1.isNode⟩

/-! ## Constants -/

theorem walk_of_ofJson? {tree : Json} {body : Node} (h : Node.ofJson? tree = some body) :
    body.walk.filterMap ResourceCall.of? = callsIn tree := by
  obtain ⟨rfl, -⟩ := Node.ofJson?_eq_some h
  rfl

/-- The same calls in another order give the same constants if no two of them start together. -/
theorem collectConstants_of_perm {body body' : Node}
    (h : (body.walk.filterMap ResourceCall.of?).Perm (body'.walk.filterMap ResourceCall.of?))
    (hstarts : ((body.walk.filterMap ResourceCall.of?).map ResourceCall.start).Nodup) :
    collectConstants body' = collectConstants body := by
  have hsorted : (body'.walk.filterMap ResourceCall.of?).mergeSort (fun a b => decide (a.start ≤ b.start)) =
      (body.walk.filterMap ResourceCall.of?).mergeSort fun a b => decide (a.start ≤ b.start) := by
    refine List.Perm.eq_of_pairwise ?_ (pairwise_mergeSort_key ResourceCall.start _)
      (pairwise_mergeSort_key ResourceCall.start _)
      ((List.mergeSort_perm _ _).trans (h.symm.trans (List.mergeSort_perm _ _).symm))
    -- two calls that could change places in the order start together, and are thus one
    intro a b ha hb hab hba
    rw [List.mem_mergeSort] at ha hb
    exact List.inj_on_of_nodup_map hstarts (h.mem_iff.mpr ha) hb (Nat.le_antisymm hab hba)
  unfold collectConstants
  split
  · next hnone' =>
      rw [hnone'] at h
      rw [h.eq_nil]
  · next hsome' =>
      split
      · next hnone => exact absurd (hnone ▸ h).symm.eq_nil hsome'
      · rw [hsorted]

theorem SourceOrder.mem_iff {body : Node} {calls : List Node} (h : SourceOrder body calls)
    (hbody : Node.ofFields? body.fields = some body) (call : Node) :
    call ∈ calls ↔ body.Descends call ∧ IsResourceCall call := by
  rw [h.all.mem_iff, List.mem_filter, decide_eq_true_eq, Node.mem_walk_iff hbody]

theorem SourceOrder.starts_nodup {body : Node} {calls : List Node} (h : SourceOrder body calls)
    (hstarts : (calls.map (·.span.start)).Nodup) :
    ((body.walk.filterMap ResourceCall.of?).map ResourceCall.start).Nodup := by
  rw [filterMap_of?, List.map_map]
  exact (h.all.map _).nodup_iff.mp hstarts

/-- The constants of a body say what its resource calls leave behind in the order of the source, and there are
none without such a call. Where no two calls start together, the items of arrays may be put in any order, those
of arguments and literals aside. -/
theorem constants_in_source_order (tree : Json) (body : Node) (hbody : Node.ofJson? tree = some body) :
    ∃ calls, SourceOrder body calls ∧ (∀ other, SourceOrder body other → other = calls) ∧
      (∀ call, call ∈ calls ↔ body.Descends call ∧ IsResourceCall call) ∧
      (collectConstants body = none ↔ calls = []) ∧
      (∀ constants, collectConstants body = some constants → Noted calls constants) ∧
      ((calls.map (·.span.start)).Nodup → ∀ tree', Relation.ReflTransGen Reorders tree tree' →
        ∃ body', Node.ofJson? tree' = some body' ∧ collectConstants body' = collectConstants body) := by
  have horder := sourceOrder_spec body
  have hconstants := collectConstants_eq body
  refine ⟨sourceOrder body, horder, fun other hother => hother.unique horder,
    horder.mem_iff (Node.ofJson?_eq_some hbody).2, ?_, ?_, ?_⟩
  · rw [hconstants]
    simp
  · intro constants hsome
    rw [hconstants] at hsome
    split at hsome
    · cases hsome
    · obtain rfl := Option.some.inj hsome
      exact noted_foldl horder.isResourceCall
  · intro hstarts tree' hreorders
    obtain ⟨hperm, hnode⟩ := callsIn_perm_of_reorders hreorders
    rw [hbody] at hnode
    obtain ⟨body', hbody'⟩ := Option.isSome_iff_exists.mp hnode.symm
    refine ⟨body', hbody', collectConstants_of_perm ?_ (horder.starts_nodup hstarts)⟩
    rw [walk_of_ofJson? hbody, walk_of_ofJson? hbody']
    exact hperm

/-- A call with one argument. -/
def callWith (callee : String) (start : Nat) (argument : Json) : Json :=
  .object [("arguments", .array [argument]),
    ("callee", .object [("name", .string callee), ("type", .string "Identifier")]),
    ("start", .ofNat start), ("type", .string "CallExpression")]

/-- A literal node. -/
def literalNode (value : Json) : Json :=
  .object [("type", .string "Literal"), ("value", value)]

/-- A secret without a literal name, and three files. The last two have one key: a string and a number. -/
def resourceItems : List Json :=
  [callWith "Secret" 2 (.object []), callWith "FileAttachment" 10 (literalNode (.string "a.csv")),
    callWith "FileAttachment" 30 (literalNode (.string "7")),
    callWith "FileAttachment" 40 (literalNode (.ofNat 7))]

/-- The node that lists items. -/
def arrayNode (items : List Json) : Node where
  typeName := "ArrayExpression"
  fields := [("type", .string "ArrayExpression"), ("elements", .array items)]

/-- The last of two literals with one key counts, and the order of the items does not. -/
theorem constants_in_source_order_reversed :
    let constants : Constants :=
      [("Secret", []), ("FileAttachment", [("a.csv", .string "a.csv"), ("7", .ofNat 7)])]
    (∃ calls, SourceOrder (arrayNode resourceItems) calls ∧
      calls.map (·.span.start) = [2, 10, 30, 40] ∧
      literalsOf "Secret" calls = [] ∧
      literalsOf "FileAttachment" calls = [.string "a.csv", .string "7", .ofNat 7] ∧
      Noted calls constants) ∧
    collectConstants (arrayNode resourceItems) = some constants ∧
    collectConstants (arrayNode resourceItems.reverse) = some constants := by
  intro constants
  let body := arrayNode resourceItems
  have hbody : Node.ofJson? (.object body.fields) = some body := rfl
  obtain ⟨calls, horder, hunique, -, -, hnoted, hreorder⟩ := constants_in_source_order _ _ hbody
  -- the items are in order, so the walk comes upon the calls as they are sorted
  have hcalls : body.walk.filter (IsResourceCall ·) = calls :=
    hunique _ ⟨.refl _, by decide +kernel, fun _ => rfl⟩
  have hstarts : calls.map (·.span.start) = [2, 10, 30, 40] := by
    rw [← hcalls]
    decide +kernel
  have hconstants : collectConstants body = some constants := by
    rw [collectConstants_eq, (sourceOrder_spec body).unique horder, ← hcalls]
    rfl
  have hstep : Reorders
      (.object ([("type", .string "ArrayExpression")] ++ ("elements", .array resourceItems) :: []))
      (.object ([("type", .string "ArrayExpression")] ++ ("elements", .array resourceItems.reverse) :: [])) := by
    refine .items rfl ?_ (by decide) (List.reverse_perm _).symm
    intro node hnode
    obtain rfl := Option.some.inj hnode
    decide
  have hdistinct : (calls.map (·.span.start)).Nodup := by
    rw [hstarts]
    decide
  obtain ⟨body', hbody', hsame⟩ := hreorder hdistinct _ (.single hstep)
  obtain rfl := Option.some.inj hbody'
  refine ⟨⟨calls, horder, hstarts, ?_, ?_, hnoted constants hconstants⟩, hconstants, hsame.trans hconstants⟩
  · rw [← hcalls]
    rfl
  · rw [← hcalls]
    rfl

end Extraction

end CellGraph
