import CellGraph.Json.Record
import CellGraph.Keyed
import Mathlib.Data.List.Induction
import Mathlib.Data.String.Basic

/-!
# Reading records back

What a value says is understood as that value, with the keys of its objects in order (`Raw.value?_ofJson`); a
value whose keys are in order is understood as itself. A reader `Inverts` a stored form if it gets a value back
from it at every depth that allows for it. Lists, fields by key and nullable values are read back if their parts
are, and a record is read back field by field (`record_ofJson`, `required_lookup`, `withDefault_lookup`). The
other way round, `Yields` says what is true of everything that a reader reads.
-/

namespace CellGraph

namespace Json

/-! ## Objects in order -/

mutual

/-- A value in which the keys of every object ascend. -/
def Ordered : Json → Prop
  | array items => OrderedItems items
  | object fields => fields.Pairwise (fun a b => a.1 < b.1) ∧ OrderedFields fields
  | _ => True

/-- Items that are such values. -/
def OrderedItems : List Json → Prop
  | [] => True
  | item :: items => Ordered item ∧ OrderedItems items

/-- Fields that have such values. -/
def OrderedFields : List (String × Json) → Prop
  | [] => True
  | (_, value) :: fields => Ordered value ∧ OrderedFields fields

end

mutual

/-- A value with the keys of every object sorted. -/
def sorted : Json → Json
  | array items => array (sortedItems items)
  | object fields => object (sortFields (sortedFields fields))
  | scalar => scalar

/-- The items as such values. -/
def sortedItems : List Json → List Json
  | [] => []
  | item :: items => sorted item :: sortedItems items

/-- The fields with such values. -/
def sortedFields : List (String × Json) → List (String × Json)
  | [] => []
  | (key, value) :: fields => (key, sorted value) :: sortedFields fields

end

theorem insertField_of_lt {key : String} {value : Json} {fields : List (String × Json)}
    (h : ∀ field ∈ fields, field.1 < key) : insertField key value fields = fields ++ [(key, value)] := by
  induction fields with
  | nil => rfl
  | cons field fields ih =>
      have hfirst : field.1 < key := h field List.mem_cons_self
      rw [insertField, if_neg hfirst.asymm, if_neg hfirst.ne', ih fun other hother =>
        h other (List.mem_cons_of_mem _ hother)]
      rfl

/-- Fields in order are sorted. -/
theorem sortFields_of_pairwise {fields : List (String × Json)}
    (h : fields.Pairwise fun a b => a.1 < b.1) : sortFields fields = fields := by
  induction fields using List.reverseRecOn with
  | nil => rfl
  | append_singleton fields field ih =>
      obtain ⟨hfields, -, hlast⟩ := List.pairwise_append.mp h
      rw [sortFields, List.foldl_append, ← sortFields, ih hfields]
      exact insertField_of_lt fun other hother => hlast other hother field (List.mem_singleton.mpr rfl)

mutual

theorem sorted_of_ordered : ∀ j : Json, j.Ordered → j.sorted = j
  | null, _ | bool _, _ | number _, _ | string _, _ => rfl
  | array items, h => by rw [sorted, sortedItems_of_ordered items h]
  | object fields, h => by rw [sorted, sortedFields_of_ordered fields h.2, sortFields_of_pairwise h.1]

theorem sortedItems_of_ordered : ∀ items : List Json, OrderedItems items → sortedItems items = items
  | [], _ => rfl
  | item :: items, h => by
      rw [sortedItems, sorted_of_ordered item h.1, sortedItems_of_ordered items h.2]

theorem sortedFields_of_ordered : ∀ fields : List (String × Json), OrderedFields fields →
    sortedFields fields = fields
  | [], _ => rfl
  | (key, value) :: fields, h => by
      rw [sortedFields, sorted_of_ordered value h.1, sortedFields_of_ordered fields h.2]

end

namespace Raw

mutual

/-- A value that is not nested too deep is understood as the value in order. -/
theorem value?_ofJson : ∀ (j : Json) (levels : Nat), (ofJson j).depth ≤ levels →
    value? levels (ofJson j) = some j.sorted
  | .null, _, _ | .bool _, _, _ | .number _, _, _ | .string _, _, _ => rfl
  | .array items, 0, h => by simp [ofJson, depth] at h
  | .array items, levels + 1, h => by
      rw [ofJson, value?, items?_ofItems items levels (Nat.le_of_succ_le_succ h)]
      rfl
  | .object fields, 0, h => by simp [ofJson, depth] at h
  | .object fields, levels + 1, h => by
      rw [ofJson, value?, fields?_ofFields fields levels (Nat.le_of_succ_le_succ h)]
      rfl

theorem items?_ofItems : ∀ (items : List Json) (levels : Nat), depthItems (ofItems items) ≤ levels →
    items? levels (ofItems items) = some (sortedItems items)
  | [], _, _ => rfl
  | item :: items, levels, h => by
      simp only [ofItems, depthItems, Nat.max_le] at h
      simp only [ofItems, items?, value?_ofJson item levels h.1, items?_ofItems items levels h.2]
      rfl

theorem fields?_ofFields : ∀ (fields : List (String × Json)) (levels : Nat),
    depthFields (ofFields fields) ≤ levels → fields? levels (ofFields fields) = some (sortedFields fields)
  | [], _, _ => rfl
  | (key, value) :: fields, levels, h => by
      simp only [ofFields, depthFields, Nat.max_le] at h
      simp only [ofFields, fields?, value?_ofJson value levels h.1, fields?_ofFields fields levels h.2]
      rfl

end

end Raw

/-! ## What is read is in order -/

theorem orderedFields_iff {fields : List (String × Json)} :
    OrderedFields fields ↔ ∀ field ∈ fields, field.2.Ordered := by
  induction fields with
  | nil => simp [OrderedFields]
  | cons field fields ih => simp [OrderedFields, ih]

theorem mem_insertField {key : String} {value : Json} {fields : List (String × Json)}
    {field : String × Json} (h : field ∈ insertField key value fields) :
    field = (key, value) ∨ field ∈ fields := by
  induction fields with
  | nil => exact Or.inl (List.mem_singleton.mp h)
  | cons other fields ih =>
      rw [insertField] at h
      split at h
      · exact List.mem_cons.mp h
      · split at h
        · exact (List.mem_cons.mp h).imp_right (List.mem_cons_of_mem _)
        · rcases List.mem_cons.mp h with rfl | h
          · exact Or.inr List.mem_cons_self
          · exact (ih h).imp_right (List.mem_cons_of_mem _)

theorem pairwise_insertField {fields : List (String × Json)} (h : fields.Pairwise fun a b => a.1 < b.1)
    (key : String) (value : Json) : (insertField key value fields).Pairwise fun a b => a.1 < b.1 := by
  induction fields with
  | nil => exact List.pairwise_singleton _ _
  | cons other fields ih =>
      obtain ⟨hfirst, hrest⟩ := List.pairwise_cons.mp h
      rw [insertField]
      split
      · next hlt =>
          refine List.pairwise_cons.mpr ⟨fun field hfield => ?_, h⟩
          rcases List.mem_cons.mp hfield with rfl | hfield
          · exact hlt
          · exact hlt.trans (hfirst field hfield)
      · next hnot =>
          split
          · next heq =>
              refine List.pairwise_cons.mpr ⟨fun field hfield => ?_, hrest⟩
              exact heq ▸ hfirst field hfield
          · next hne =>
              refine List.pairwise_cons.mpr ⟨fun field hfield => ?_, ih hrest⟩
              rcases mem_insertField hfield with rfl | hfield
              · exact lt_of_le_of_ne (not_lt.mp hnot) (Ne.symm hne)
              · exact hfirst field hfield

/-- Sorted fields are in order, and no others than those that were to be sorted. -/
theorem sortFields_spec (fields : List (String × Json)) :
    (sortFields fields).Pairwise (fun a b => a.1 < b.1) ∧ ∀ field ∈ sortFields fields, field ∈ fields := by
  induction fields using List.reverseRecOn with
  | nil => exact ⟨List.Pairwise.nil, nofun⟩
  | append_singleton fields field ih =>
      rw [sortFields, List.foldl_append, ← sortFields]
      refine ⟨pairwise_insertField ih.1 _ _, fun other hother => ?_⟩
      rcases mem_insertField hother with rfl | hother
      · simp
      · exact List.mem_append_left _ (ih.2 other hother)

namespace Raw

mutual

/-- A value that is read is in order. -/
theorem ordered_of_value? : ∀ (raw : Raw) (levels : Nat) (j : Json), value? levels raw = some j → j.Ordered
  | .null, _, _, h | .bool _, _, _, h => by
      cases h
      trivial
  | .number n, _, _, h => by
      obtain ⟨n, -, rfl⟩ := Option.map_eq_some_iff.mp h
      trivial
  | .string s, _, _, h => by
      obtain ⟨s, -, rfl⟩ := Option.map_eq_some_iff.mp h
      trivial
  | .array items, levels + 1, _, h => by
      obtain ⟨found, hitems, rfl⟩ := Option.map_eq_some_iff.mp h
      exact ordered_of_items? items levels found hitems
  | .object fields, levels + 1, _, h => by
      obtain ⟨found, hfields, rfl⟩ := Option.map_eq_some_iff.mp h
      obtain ⟨hpairwise, hmem⟩ := sortFields_spec found
      have hvalues := orderedFields_iff.mp (ordered_of_fields? fields levels found hfields)
      exact ⟨hpairwise, orderedFields_iff.mpr fun field hfield => hvalues field (hmem field hfield)⟩

theorem ordered_of_items? : ∀ (items : List Raw) (levels : Nat) (found : List Json),
    items? levels items = some found → OrderedItems found
  | [], _, _, h => by
      cases h
      trivial
  | item :: items, levels, _, h => by
      simp only [items?, Option.bind_eq_bind, Option.bind_eq_some_iff] at h
      obtain ⟨first, hfirst, rest, hrest, hfound⟩ := h
      cases hfound
      exact ⟨ordered_of_value? item levels first hfirst, ordered_of_items? items levels rest hrest⟩

theorem ordered_of_fields? : ∀ (fields : List (Option String × Raw)) (levels : Nat)
    (found : List (String × Json)), fields? levels fields = some found → OrderedFields found
  | [], _, _, h => by
      cases h
      trivial
  | (key, value) :: fields, levels, _, h => by
      simp only [fields?, Option.bind_eq_bind, Option.bind_eq_some_iff] at h
      obtain ⟨name, -, first, hfirst, rest, hrest, hfound⟩ := h
      cases hfound
      exact ⟨ordered_of_value? value levels first hfirst, ordered_of_fields? fields levels rest hrest⟩

end

end Raw

/-! ## Readers and documents -/

namespace Reader

variable {α : Type} {reader : Reader α} {document : α → Json}

/-- A reader that gets a value back from its document, wherever the document is not nested too deep. -/
def Inverts (reader : Reader α) (document : α → Json) (a : α) : Prop :=
  ∀ levels, (Raw.ofJson (document a)).depth ≤ levels → reader levels (Raw.ofJson (document a)) = some a

theorem inverts_string (s : String) : Inverts .string .string s :=
  fun _ _ => rfl

theorem inverts_json {j : Json} (h : j.Ordered) : Inverts .json id j := fun levels hdepth => by
  rw [json, id, Raw.value?_ofJson j levels hdepth, sorted_of_ordered j h]

theorem inverts_list {items : List α} (h : ∀ a ∈ items, Inverts reader document a) :
    Inverts (.list reader) (fun items => .array (items.map document)) items := by
  intro levels hdepth
  have hall : ∀ (items : List α) (levels : Nat), (∀ a ∈ items, Inverts reader document a) →
      Raw.depthItems (Raw.ofItems (items.map document)) ≤ levels →
      (Raw.ofItems (items.map document)).mapM (reader levels) = some items := by
    intro items levels h hdepth
    induction items with
    | nil => rfl
    | cons a items ih =>
        simp only [List.map_cons, Raw.ofItems, Raw.depthItems, Nat.max_le] at hdepth ⊢
        rw [List.mapM_cons, h a List.mem_cons_self levels hdepth.1,
          ih (fun b hb => h b (List.mem_cons_of_mem _ hb)) hdepth.2]
        rfl
  cases levels with
  | zero => simp [Raw.ofJson, Raw.depth] at hdepth
  | succ levels => exact hall items levels h (Nat.le_of_succ_le_succ hdepth)

theorem inverts_fields {fields : List (String × α)} (h : ∀ field ∈ fields, Inverts reader document field.2) :
    Inverts (.fields reader) (fun fields => .object (fields.map fun field => (field.1, document field.2)))
      fields := by
  intro levels hdepth
  have hall : ∀ (fields : List (String × α)) (levels : Nat),
      (∀ field ∈ fields, Inverts reader document field.2) →
      Raw.depthFields (Raw.ofFields (fields.map fun field => (field.1, document field.2))) ≤ levels →
      (Raw.ofFields (fields.map fun field => (field.1, document field.2))).mapM
        (fun field => do return (← field.1, ← reader levels field.2)) = some fields := by
    intro fields levels h hdepth
    induction fields with
    | nil => rfl
    | cons field fields ih =>
        simp only [List.map_cons, Raw.ofFields, Raw.depthFields, Nat.max_le] at hdepth ⊢
        rw [List.mapM_cons, h field List.mem_cons_self levels hdepth.1,
          ih (fun b hb => h b (List.mem_cons_of_mem _ hb)) hdepth.2]
        rfl
  cases levels with
  | zero => simp [Raw.ofJson, Raw.depth] at hdepth
  | succ levels => exact hall fields levels h (Nat.le_of_succ_le_succ hdepth)

theorem nullable_of_ne_null {raw : Raw} (h : raw ≠ .null) (levels : Nat) :
    Reader.nullable reader levels raw = (reader levels raw).map some := by
  cases raw with
  | null => exact absurd rfl h
  | bool _ | number _ | string _ | array _ | object _ => rfl

/-- A missing value is stored as `null`, and other values are not. -/
theorem inverts_nullable {a : Option α} (h : ∀ b, a = some b → Inverts reader document b)
    (hnull : ∀ b, Raw.ofJson (document b) ≠ .null) :
    Inverts (.nullable reader) (fun a => a.elim .null document) a := by
  intro levels hdepth
  cases a with
  | none => rfl
  | some b =>
      have hread : reader levels (Raw.ofJson (document b)) = some b := h b rfl levels hdepth
      simp only [Option.elim_some, nullable_of_ne_null (hnull b), hread, Option.map_some]

/-- A field of a document whose keys differ is found by its key. -/
theorem unique?_ofFields {fields : List (String × Json)} (h : (fields.map Prod.fst).Nodup) (name : String) :
    unique? name (Raw.ofFields fields) = some ((fields.lookup name).map Raw.ofJson) := by
  have hnone : ∀ fields : List (String × Json), name ∉ fields.map Prod.fst →
      (Raw.ofFields fields).filter (fun field => field.1 == some name) = [] := by
    intro fields hname
    induction fields with
    | nil => rfl
    | cons field fields ih =>
        rw [List.map_cons, List.mem_cons, not_or] at hname
        rw [Raw.ofFields, List.filter_cons_of_neg (by simpa using Ne.symm hname.1), ih hname.2]
  induction fields with
  | nil => rfl
  | cons field fields ih =>
      rw [List.map_cons, List.nodup_cons] at h
      by_cases hfield : name = field.1
      · have hrest := hnone fields (hfield ▸ h.1)
        rw [unique?, Raw.ofFields, List.filter_cons_of_pos (by simp [hfield]), hrest,
          List.lookup_cons, beq_iff_eq.mpr hfield]
        rfl
      · rw [unique?, Raw.ofFields, List.filter_cons_of_neg (by simpa using Ne.symm hfield), ← unique?, ih h.2,
          List.lookup_cons, beq_eq_false_iff_ne.mpr hfield]

/-- So are all fields of a record. -/
theorem record_ofJson {fields : List (String × Json)} (h : (fields.map Prod.fst).Nodup) (names : List String)
    (levels : Nat) : Reader.record names (levels + 1) (Raw.ofJson (.object fields)) =
      some (names.map fun name => (fields.lookup name).map Raw.ofJson) := by
  have hkeys : ((Raw.ofFields fields).all fun field => field.1.isSome) = true := by
    clear h
    induction fields with
    | nil => rfl
    | cons field fields ih => simpa [Raw.ofFields] using ih
  rw [Raw.ofJson, record, if_pos hkeys]
  induction names with
  | nil => rfl
  | cons name names ih =>
      rw [List.mapM_cons, unique?_ofFields h, ih]
      rfl

theorem depth_lookup {fields : List (String × Json)} {name : String} {value : Json}
    (h : fields.lookup name = some value) :
    (Raw.ofJson value).depth ≤ (Raw.ofJson (.object fields)).depth - 1 := by
  have hall : (Raw.ofJson value).depth ≤ Raw.depthFields (Raw.ofFields fields) := by
    induction fields with
    | nil => cases h
    | cons field fields ih =>
        rw [Raw.ofFields, Raw.depthFields]
        rw [List.lookup_cons] at h
        split at h
        · cases h
          exact Nat.le_max_left _ _
        · exact le_trans (ih h) (Nat.le_max_right _ _)
  simpa [Raw.ofJson, Raw.depth] using hall

section

variable {fields : List (String × Json)} {levels : Nat} {name : String} {a : α}

/-- A field that may not be missing is read back from the document of its record. -/
theorem required_lookup (h : Inverts reader document a)
    (hdepth : (Raw.ofJson (.object fields)).depth ≤ levels)
    (hlookup : fields.lookup name = some (document a)) :
    required reader levels ((fields.lookup name).map Raw.ofJson) = some a := by
  have hfield := depth_lookup hlookup
  rw [hlookup]
  exact h (levels - 1) (by omega)

/-- So is a field that has a default. -/
theorem withDefault_lookup {default : α} (h : Inverts reader document a)
    (hdepth : (Raw.ofJson (.object fields)).depth ≤ levels)
    (hlookup : fields.lookup name = some (document a)) :
    withDefault default reader levels ((fields.lookup name).map Raw.ofJson) = some a := by
  have hfield := depth_lookup hlookup
  rw [hlookup]
  exact h (levels - 1) (by omega)

end

/-! ### What readers yield -/

/-- A property of all that a reader can read. -/
def Yields (reader : Reader α) (P : α → Prop) : Prop :=
  ∀ levels raw a, reader levels raw = some a → P a

theorem yields_json : Yields .json Ordered :=
  fun levels raw j h => Raw.ordered_of_value? raw levels j h

theorem forall_of_mapM {β : Type} {f : β → Option α} {P : α → Prop} (hf : ∀ b a, f b = some a → P a)
    {bs : List β} {as : List α} (h : bs.mapM f = some as) : ∀ a ∈ as, P a := by
  induction bs generalizing as with
  | nil =>
      cases h
      nofun
  | cons b bs ih =>
      simp only [List.mapM_cons, Option.bind_eq_bind, Option.bind_eq_some_iff] at h
      obtain ⟨first, hfirst, rest, hrest, hall⟩ := h
      cases hall
      exact List.forall_mem_cons.mpr ⟨hf b first hfirst, ih hrest⟩

variable {P : α → Prop}

theorem yields_list (h : Yields reader P) : Yields (.list reader) fun items => ∀ a ∈ items, P a := by
  intro levels raw items hread
  unfold list at hread
  split at hread
  · exact forall_of_mapM (fun raw a => h _ raw a) hread
  · cases hread

theorem yields_fields (h : Yields reader P) :
    Yields (.fields reader) fun fields => ∀ field ∈ fields, P field.2 := by
  intro levels raw fields hread
  unfold Reader.fields at hread
  split at hread
  · refine forall_of_mapM (fun pair field hfield => ?_) hread
    simp only [Option.bind_eq_bind, Option.bind_eq_some_iff] at hfield
    obtain ⟨key, -, a, ha, hsame⟩ := hfield
    cases hsame
    exact h _ _ a ha
  · cases hread

theorem yields_nullable (h : Yields reader P) : Yields (.nullable reader) fun a => ∀ b, a = some b → P b := by
  intro levels raw a hread b hb
  by_cases hnull : raw = .null
  · rw [hnull] at hread
    cases hread
    cases hb
  · rw [nullable_of_ne_null hnull, hb] at hread
    obtain ⟨c, hc, hsame⟩ := Option.map_eq_some_iff.mp hread
    cases hsame
    exact h levels raw b hc

theorem withDefault_yields (h : Yields reader P) {default : α} (hdefault : P default) {levels : Nat}
    {raw : Option Raw} {a : α} (hread : withDefault default reader levels raw = some a) : P a := by
  cases raw with
  | none =>
      cases hread
      exact hdefault
  | some raw => exact h _ raw a hread

end Reader

end Json

namespace Keyed

variable {β : Type}

theorem put_of_not_mem {key : String} (value : β) {entries : List (String × β)}
    (h : key ∉ entries.map Prod.fst) : put key value entries = entries ++ [(key, value)] := by
  induction entries with
  | nil => rfl
  | cons entry entries ih =>
      rw [List.map_cons, List.mem_cons, not_or] at h
      rw [put, alter, if_neg (Ne.symm h.1), ← put, ih h.2]
      rfl

/-- Entries whose keys differ stay as they are. -/
theorem ofList_of_nodup {entries : List (String × β)} (h : (entries.map Prod.fst).Nodup) :
    ofList entries = entries := by
  induction entries using List.reverseRecOn with
  | nil => rfl
  | append_singleton entries entry ih =>
      rw [List.map_append, List.nodup_append] at h
      obtain ⟨hentries, -, hdisjoint⟩ := h
      rw [ofList, List.foldl_append, ← ofList, ih hentries]
      refine put_of_not_mem entry.2 fun hmem => ?_
      exact hdisjoint _ hmem entry.1 (by simp) rfl

theorem keys_alter (key : String) (f : Option β → β) (entries : List (String × β)) :
    (alter key f entries).map Prod.fst =
      if key ∈ entries.map Prod.fst then entries.map Prod.fst else entries.map Prod.fst ++ [key] := by
  induction entries with
  | nil => rfl
  | cons entry entries ih =>
      rw [alter]
      split
      · next hsame => simp [hsame]
      · next hother =>
          rw [List.map_cons, ih]
          by_cases hmem : key ∈ entries.map Prod.fst
          · simp [hmem]
          · simp [hmem, Ne.symm hother]

theorem keys_put (key : String) (value : β) (entries : List (String × β)) :
    (put key value entries).map Prod.fst =
      if key ∈ entries.map Prod.fst then entries.map Prod.fst else entries.map Prod.fst ++ [key] :=
  keys_alter key (fun _ => value) entries

theorem lookup_cons (key other : String) (value : β) (entries : List (String × β)) :
    ((key, value) :: entries).lookup other = if other = key then some value else entries.lookup other := by
  rw [List.lookup_cons]
  by_cases hother : other = key
  · rw [beq_iff_eq.mpr hother, if_pos hother]
  · rw [beq_eq_false_iff_ne.mpr hother, if_neg hother]

/-- Only the value under the key itself changes, whatever other keys there are. -/
theorem lookup_alter (key other : String) (f : Option β → β) (entries : List (String × β)) :
    (alter key f entries).lookup other =
      if other = key then some (f (entries.lookup key)) else entries.lookup other := by
  induction entries with
  | nil => exact lookup_cons key other (f none) []
  | cons entry entries ih =>
      obtain ⟨name, value⟩ := entry
      rw [alter, lookup_cons, lookup_cons]
      by_cases hname : name = key
      · by_cases hother : other = key <;> simp [lookup_cons, hname, hother]
      · rw [if_neg hname, lookup_cons, ih, if_neg (Ne.symm hname)]
        by_cases hother : other = name
        · simp [hother, hname]
        · simp [hother]

theorem mem_put {key : String} {value : β} {entries : List (String × β)} {entry : String × β}
    (h : entry ∈ put key value entries) : entry = (key, value) ∨ entry ∈ entries := by
  induction entries with
  | nil => exact Or.inl (List.mem_singleton.mp h)
  | cons other entries ih =>
      rw [put, alter] at h
      split at h
      · next hsame =>
          rcases List.mem_cons.mp h with rfl | h
          · exact Or.inl (by rw [hsame])
          · exact Or.inr (List.mem_cons_of_mem _ h)
      · rcases List.mem_cons.mp h with rfl | h
        · exact Or.inr List.mem_cons_self
        · exact (ih h).imp_right (List.mem_cons_of_mem _)

/-- Entries that are put in one after the other have different keys, and are no others than those. -/
theorem ofList_spec (entries : List (String × β)) :
    ((ofList entries).map Prod.fst).Nodup ∧ ∀ entry ∈ ofList entries, entry ∈ entries := by
  induction entries using List.reverseRecOn with
  | nil => exact ⟨List.nodup_nil, nofun⟩
  | append_singleton entries entry ih =>
      rw [ofList, List.foldl_append, ← ofList]
      refine ⟨?_, fun other hother => ?_⟩
      · rw [List.foldl_cons, List.foldl_nil, keys_put]
        split
        · exact ih.1
        · next hnew =>
            refine List.nodup_append.mpr ⟨ih.1, by simp, fun key hkey last hlast => ?_⟩
            rw [List.mem_singleton.mp hlast]
            exact fun hsame => hnew (hsame ▸ hkey)
      · rcases mem_put hother with rfl | hother
        · simp
        · exact List.mem_append_left _ (ih.2 other hother)

end Keyed

end CellGraph
