import CellGraph.Proofs.Extraction.Parameters
import CellGraph.Proofs.Json.Records

/-!
# Constants in the order of the source

The constants of a cell come about call by call, in a list that replaces values in their place. What they are
in the end is said here without that list. `SourceOrder` puts the resource calls of a body in the order of their
starts, and those that start together in the order of the walk: one list is in that order, and no other
(`sourceOrder_spec`, `SourceOrder.unique`). `Noted` says what such a list leaves behind: the callees and under
each of them the keys of its literals in the order of first appearance, and for each key the last literal. One
more call keeps it (`Noted.concat`).
-/

namespace CellGraph.Extraction

open Ast

/-! ## Stable order -/

section

variable {α : Type} (key : α → Nat)

theorem key_le_trans (a b c : α) (hab : decide (key a ≤ key b) = true) (hbc : decide (key b ≤ key c) = true) :
    decide (key a ≤ key c) = true := by
  rw [decide_eq_true_eq] at hab hbc ⊢
  exact Nat.le_trans hab hbc

theorem key_le_total (a b : α) : (decide (key a ≤ key b) || decide (key b ≤ key a)) = true := by
  rw [Bool.or_eq_true, decide_eq_true_eq, decide_eq_true_eq]
  exact Nat.le_total (key a) (key b)

/-- Sorting by a key puts the keys in order. -/
theorem pairwise_mergeSort_key (items : List α) :
    (items.mergeSort fun a b => decide (key a ≤ key b)).Pairwise fun a b => key a ≤ key b :=
  (List.pairwise_mergeSort (key_le_trans key) (key_le_total key) items).imp of_decide_eq_true

/-- Sorting by a key leaves the items of each key in the order in which they were. -/
theorem filter_mergeSort_key (items : List α) (k : Nat) :
    (items.mergeSort fun a b => decide (key a ≤ key b)).filter (key · = k) = items.filter (key · = k) := by
  have hpairwise : (items.filter (key · = k)).Pairwise fun a b => decide (key a ≤ key b) = true := by
    refine List.pairwise_of_forall_mem_list fun a ha b hb => ?_
    rw [List.mem_filter, decide_eq_true_eq] at ha hb
    rw [decide_eq_true_eq, ha.2, hb.2]
  have hsublist := List.sublist_mergeSort (key_le_trans key) (key_le_total key) hpairwise List.filter_sublist
  have hkept := hsublist.filter (key · = k)
  rw [List.filter_filter] at hkept
  simp only [Bool.and_self] at hkept
  exact (hkept.eq_of_length ((List.mergeSort_perm items _).filter _).length_eq.symm).symm

theorem mem_iff_of_filter_key_eq {items items' : List α}
    (h : ∀ k, items.filter (key · = k) = items'.filter (key · = k)) (a : α) : a ∈ items ↔ a ∈ items' := by
  have hfilter : a ∈ items.filter (key · = key a) ↔ a ∈ items'.filter (key · = key a) := by rw [h]
  simpa using hfilter

/-- A list in the order of a key is determined by its items of each key. -/
theorem eq_of_filter_key_eq {items items' : List α} (h : items.Pairwise fun a b => key a ≤ key b)
    (h' : items'.Pairwise fun a b => key a ≤ key b)
    (hsame : ∀ k, items.filter (key · = k) = items'.filter (key · = k)) : items = items' := by
  induction items generalizing items' with
  | nil =>
      have hempty : ∀ a, a ∉ items' := fun a ha =>
        List.not_mem_nil ((mem_iff_of_filter_key_eq key hsame a).mpr ha)
      exact (List.eq_nil_iff_forall_not_mem.mpr hempty).symm
  | cons a items ih =>
      have hmem := mem_iff_of_filter_key_eq key hsame
      cases items' with
      | nil => exact absurd ((hmem a).mp List.mem_cons_self) List.not_mem_nil
      | cons b items' =>
          rw [List.pairwise_cons] at h h'
          -- neither of the first items has a greater key than the other: each is in the other's list
          have hab : key a ≤ key b := by
            rcases List.mem_cons.mp ((hmem b).mpr List.mem_cons_self) with hb | hb
            · rw [hb]
            · exact h.1 b hb
          have hba : key b ≤ key a := by
            rcases List.mem_cons.mp ((hmem a).mp List.mem_cons_self) with ha | ha
            · rw [ha]
            · exact h'.1 a ha
          have hkey : key b = key a := Nat.le_antisymm hba hab
          have hfirst := hsame (key a)
          rw [List.filter_cons_of_pos (by simp), List.filter_cons_of_pos (by simp [hkey])] at hfirst
          obtain ⟨rfl, -⟩ := List.cons.inj hfirst
          have hrest : ∀ k, items.filter (key · = k) = items'.filter (key · = k) := by
            intro k
            have hk := hsame k
            rw [List.filter_cons, List.filter_cons] at hk
            split at hk
            · exact (List.cons.inj hk).2
            · exact hk
          rw [ih h.2 h'.2 hrest]

end

/-! ## Resource calls -/

/-- The value of a node, if that is a literal. -/
def literalOf? (node : Node) : Option Json :=
  if node.typeName = "Literal" then node.fields.lookup "value" else none

/-- The value of the first node among the items of an array, if that is a literal with a value. -/
def firstLiteral? (value : Json) : Option Json :=
  ((value.array?.getD []).filterMap Node.ofJson?).head?.bind literalOf?

/-- The value of the first node among the arguments of a call, if that is a literal with a value. -/
def argument? (node : Node) : Option Json :=
  (node.fields.lookup "arguments").bind firstLiteral?

/-- The name of what a node calls. -/
def callee? (node : Node) : Option String :=
  (node.fields.lookup "callee").bind fun value =>
    (Node.ofJson? value).bind fun callee => (callee.fields.lookup "name").bind Json.string?

/-- A call of one of the resources. -/
def IsResourceCall (node : Node) : Prop :=
  node.typeName = "CallExpression" ∧
    ∃ callee ∈ callee? node, callee ∈ ["FileAttachment", "Secret", "DatabaseClient"]

instance : DecidablePred IsResourceCall := fun node =>
  inferInstanceAs (Decidable (node.typeName = "CallExpression" ∧
    ∃ callee ∈ callee? node, callee ∈ ["FileAttachment", "Secret", "DatabaseClient"]))

theorem kind_eq_literal_iff (node : Node) : node.kind = .literal ↔ node.typeName = "Literal" := by
  unfold Node.kind Kind.ofName
  split <;> simp_all

theorem kind_eq_callExpression_iff (node : Node) :
    node.kind = .callExpression ↔ node.typeName = "CallExpression" := by
  unfold Node.kind Kind.ofName
  split <;> simp_all

theorem literal?_eq (node : Node) : node.literal? = literalOf? node := by
  rw [Node.literal?, literalOf?]
  simp only [kind_eq_literal_iff]

theorem field?_callee_eq (node : Node) : (node.field? "callee").bind Node.name? = callee? node := by
  rw [Node.field?, Option.bind_assoc]
  rfl

theorem list_arguments_eq (node : Node) :
    (node.list "arguments").head?.bind Node.literal? = argument? node := by
  rw [show Node.literal? = literalOf? from funext literal?_eq, argument?, Node.list]
  rcases node.fields.lookup "arguments" with _ | value
  · rfl
  · cases value <;> rfl

/-- What is noted of a resource call. -/
def record (node : Node) : ResourceCall where
  start := node.span.start
  callee := (callee? node).getD ""
  argument := argument? node

theorem of?_eq (node : Node) :
    ResourceCall.of? node = if IsResourceCall node then some (record node) else none := by
  unfold ResourceCall.of?
  rw [field?_callee_eq, list_arguments_eq]
  simp only [kind_eq_callExpression_iff]
  by_cases hkind : node.typeName = "CallExpression"
  · rcases hcallee : callee? node with _ | callee
    · have hnot : ¬IsResourceCall node := by simp [IsResourceCall, hcallee]
      simp [hkind, hnot, guard]
    · by_cases hmem : callee ∈ resourceCalls
      · have hcall : IsResourceCall node := ⟨hkind, callee, hcallee, hmem⟩
        rw [if_pos hcall, record, hcallee, Option.getD_some]
        simp [hkind, hmem, guard]
      · have hnot : ¬IsResourceCall node := by
          rintro ⟨-, other, hother, hresource⟩
          obtain rfl := Option.some.inj (hcallee.symm.trans hother)
          exact hmem hresource
        simp [hkind, hmem, hnot, guard]
  · have hnot : ¬IsResourceCall node := fun h => hkind h.1
    simp [hkind, hnot, guard]

theorem filterMap_of? (nodes : List Node) :
    nodes.filterMap ResourceCall.of? = (nodes.filter (IsResourceCall ·)).map record := by
  induction nodes with
  | nil => rfl
  | cons node nodes ih =>
      by_cases hcall : IsResourceCall node
      · rw [List.filterMap_cons_some (by rw [of?_eq, if_pos hcall]), ih,
          List.filter_cons_of_pos (by simpa using hcall), List.map_cons]
      · rw [List.filterMap_cons_none (by rw [of?_eq, if_neg hcall]), ih,
          List.filter_cons_of_neg (by simpa using hcall)]

/-- The resource calls of a body in the order of the source. -/
structure SourceOrder (body : Node) (calls : List Node) : Prop where
  /-- These are the resource calls among the nodes of the body. -/
  all : calls.Perm (body.walk.filter (IsResourceCall ·))
  sorted : calls.Pairwise fun a b => a.span.start ≤ b.span.start
  /-- Calls that start together are in the order of the walk. -/
  ties : ∀ start, calls.filter (·.span.start = start) =
    (body.walk.filter (IsResourceCall ·)).filter (·.span.start = start)

/-- The list in that order. -/
def sourceOrder (body : Node) : List Node :=
  (body.walk.filter (IsResourceCall ·)).mergeSort fun a b => decide (a.span.start ≤ b.span.start)

theorem sourceOrder_spec (body : Node) : SourceOrder body (sourceOrder body) where
  all := List.mergeSort_perm _ _
  sorted := pairwise_mergeSort_key (fun node : Node => node.span.start) _
  ties := filter_mergeSort_key (fun node : Node => node.span.start) _

theorem SourceOrder.unique {body : Node} {calls calls' : List Node} (h : SourceOrder body calls)
    (h' : SourceOrder body calls') : calls = calls' :=
  eq_of_filter_key_eq (fun node : Node => node.span.start) h.sorted h'.sorted fun start =>
    (h.ties start).trans (h'.ties start).symm

/-- The constants are noted call by call in the order of the source. -/
theorem collectConstants_eq (body : Node) :
    collectConstants body = if sourceOrder body = [] then none
      else some (((sourceOrder body).map record).foldl noteCall []) := by
  have hcalls : (body.walk.filterMap ResourceCall.of?).mergeSort (fun a b => decide (a.start ≤ b.start)) =
      (sourceOrder body).map record := by
    rw [filterMap_of?, sourceOrder]
    have hstart : ∀ a ∈ body.walk.filter (IsResourceCall ·), ∀ b ∈ body.walk.filter (IsResourceCall ·),
        decide (a.span.start ≤ b.span.start) = decide ((record a).start ≤ (record b).start) :=
      fun _ _ _ _ => rfl
    exact (List.map_mergeSort hstart).symm
  have hempty : body.walk.filterMap ResourceCall.of? = [] ↔ sourceOrder body = [] := by
    rw [filterMap_of?, List.map_eq_nil_iff]
    have hperm := (sourceOrder_spec body).all
    exact ⟨fun hnil => (hnil ▸ hperm).eq_nil, fun hnil => (hnil ▸ hperm.symm).eq_nil⟩
  unfold collectConstants
  split
  · next hnone => rw [if_pos (hempty.mp hnone)]
  · next hsome => rw [if_neg fun hnil => hsome (hempty.mpr hnil), hcalls]

/-! ## What calls leave behind -/

/-- The literals that the calls of one callee have for an argument. -/
def literalsOf (callee : String) (calls : List Node) : List Json :=
  (calls.filter (callee? · = some callee)).filterMap argument?

theorem literalsOf_concat (callee : String) (calls : List Node) (call : Node) :
    literalsOf callee (calls ++ [call]) =
      literalsOf callee calls ++ if callee? call = some callee then (argument? call).toList else [] := by
  rw [literalsOf, List.filter_append, List.filterMap_append, ← literalsOf]
  by_cases hcallee : callee? call = some callee
  · rcases hargument : argument? call with _ | value <;> simp [hcallee, hargument]
  · simp [hcallee]

theorem keys_alter_eraseDups {β : Type} {entries : List (String × β)} {names : List String}
    (h : entries.map Prod.fst = names.eraseDups) (name : String) (f : Option β → β) :
    (Keyed.alter name f entries).map Prod.fst = (names ++ [name]).eraseDups := by
  rw [Keyed.keys_alter, eraseDups_concat, h]
  by_cases hname : name ∈ names <;> simp [hname]

/-- The key that a literal is kept under: a string itself, or the compact text of any other value. -/
def keyOf : Json → String
  | .string text => text
  | other => other.compact

theorem literalKey_eq (value : Json) : literalKey value = keyOf value := by
  cases value <;> rfl

/-- What literals leave behind: their keys in the order of first appearance, each with the last literal that
has it. -/
structure Kept (literals : List Json) (entries : List (String × Json)) : Prop where
  keys : entries.map Prod.fst = (literals.map keyOf).eraseDups
  values : ∀ key, entries.lookup key = (literals.filter (keyOf · = key)).getLast?

theorem Kept.nil : Kept [] [] where
  keys := rfl
  values _ := rfl

/-- One more literal. -/
theorem Kept.concat {literals : List Json} {entries : List (String × Json)} (h : Kept literals entries)
    (value : Json) : Kept (literals ++ [value]) (Keyed.put (keyOf value) value entries) where
  keys := by
    rw [List.map_append]
    exact keys_alter_eraseDups h.keys _ _
  values key := by
    rw [Keyed.put, Keyed.lookup_alter, h.values, List.filter_append]
    by_cases hkey : key = keyOf value
    · simp [hkey]
    · simp [hkey, Ne.symm hkey]

/-- What calls leave behind: their callees in the order of first appearance, each with its literals. -/
structure Noted (calls : List Node) (constants : Constants) : Prop where
  callees : constants.map Prod.fst = (calls.filterMap callee?).eraseDups
  literals : ∀ callee, Kept (literalsOf callee calls) ((constants.lookup callee).getD [])

theorem Noted.nil : Noted [] [] where
  callees := rfl
  literals _ := Kept.nil

/-- One more call. -/
theorem Noted.concat {calls : List Node} {constants : Constants} (h : Noted calls constants) {call : Node}
    (hcall : IsResourceCall call) : Noted (calls ++ [call]) (noteCall constants (record call)) := by
  obtain ⟨-, callee, hcallee, -⟩ := hcall
  have hname : (record call).callee = callee := by
    rw [record, hcallee, Option.getD_some]
  constructor
  · rw [noteCall, hname, List.filterMap_append, List.filterMap_cons_some hcallee]
    exact keys_alter_eraseDups h.callees _ _
  · intro other
    rw [noteCall, Keyed.lookup_alter, hname, literalsOf_concat, hcallee]
    have hkept := h.literals other
    by_cases hother : other = callee
    · subst hother
      rw [if_pos rfl, if_pos rfl, Option.getD_some]
      have hargument : (record call).argument = argument? call := rfl
      simp only [hargument]
      rcases argument? call with _ | value
      · simpa using hkept
      · simp only [literalKey_eq]
        exact hkept.concat value
    · rw [if_neg hother, if_neg fun heq => hother (Option.some.inj heq).symm, List.append_nil]
      exact hkept

/-- So do all calls, one after the other. -/
theorem noted_foldl {calls : List Node} (h : ∀ call ∈ calls, IsResourceCall call) :
    Noted calls ((calls.map record).foldl noteCall []) := by
  induction calls using List.reverseRecOn with
  | nil => exact Noted.nil
  | append_singleton calls call ih =>
      rw [List.map_append, List.foldl_append]
      exact (ih fun other hother => h other (List.mem_append_left _ hother)).concat (h call (by simp))

theorem SourceOrder.isResourceCall {body : Node} {calls : List Node} (h : SourceOrder body calls) :
    ∀ call ∈ calls, IsResourceCall call := by
  intro call hcall
  simpa using (List.mem_filter.mp (h.all.mem_iff.mp hcall)).2

end CellGraph.Extraction
