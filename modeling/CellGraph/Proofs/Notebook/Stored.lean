import CellGraph.Notebook.Document
import CellGraph.Proofs.Json.Reading
import CellGraph.Proofs.Json.Records

/-!
# Stored notebooks

Each part of a notebook is read back from its stored form, at every depth that the stored form can be read at
(`Inverts`), and so is the whole notebook (`Notebook.inverts`). Its text is taken apart into the stored form, so
the notebook is read back from its text. For this, what is held as lists by key is to be as it would be read:
objects in order, and each key of the constants once (`Canonical`). Everything that is read is so
(`Notebook.yields`).
-/

namespace CellGraph

open Json (Raw Reader)
open Json.Reader (Inverts)

/-! ## Parts of notebooks -/

/-- A pair of names is read back. -/
theorem Binding.inverts (b : Binding) : Inverts reader document b := by
  intro levels hdepth
  cases levels with
  | zero => simp [document, Raw.ofJson, Raw.depth] at hdepth
  | succ levels =>
      let fields : List (String × Json) := [("name", .string b.name), ("alias", .string b.newName)]
      have hname : Reader.required .string (levels + 1) ((fields.lookup "name").map Raw.ofJson) =
          some b.name :=
        Reader.required_lookup (Reader.inverts_string b.name) hdepth rfl
      have hnew : Reader.required .string (levels + 1) ((fields.lookup "alias").map Raw.ofJson) =
          some b.newName :=
        Reader.required_lookup (Reader.inverts_string b.newName) hdepth rfl
      have hkeys : (fields.map Prod.fst).Nodup := by simp [fields]
      rw [reader, document, Reader.record_ofJson hkeys]
      simp only [List.map_cons, List.map_nil, Option.bind_eq_bind, Option.bind_some, hname, hnew]
      rfl

/-- Constants as they are held: each key once on both levels, and literals in order. -/
structure Constants.Canonical (c : Constants) : Prop where
  calls : (c.map Prod.fst).Nodup
  keys : ∀ entry ∈ c, (entry.2.map Prod.fst).Nodup
  literals : ∀ entry ∈ c, ∀ literal ∈ entry.2, literal.2.Ordered

/-- Constants are read back. -/
theorem Constants.inverts {c : Constants} (h : c.Canonical) : Inverts reader document c := by
  have hinner : ∀ entry ∈ c, Inverts (fun levels raw => (Reader.fields .json levels raw).map Keyed.ofList)
      Json.object entry.2 := by
    intro entry hentry levels hdepth
    have hfields := Reader.inverts_fields fun field hfield =>
      Reader.inverts_json (h.literals entry hentry field hfield)
    have hread : Reader.fields .json levels (Raw.ofJson (.object entry.2)) = some entry.2 := by
      have hlevel := hfields levels
      simp only [id, List.map_id'] at hlevel
      exact hlevel hdepth
    simp only [hread, Option.map_some, Keyed.ofList_of_nodup (h.keys entry hentry)]
  intro levels hdepth
  rw [reader, document, Reader.inverts_fields hinner levels hdepth, Option.map_some,
    Keyed.ofList_of_nodup h.calls]

/-- A value cell as it is held. -/
def ValueCell.Canonical (cell : ValueCell) : Prop :=
  ∀ c, cell.constants = some c → c.Canonical

/-- The stored form of a value cell with its tag is read back without it. -/
theorem ValueCell.inverts {cell : ValueCell} (h : cell.Canonical) :
    Inverts reader (fun cell => .object (("type", .string "cell") :: cell.fields)) cell := by
  intro levels hdepth
  obtain ⟨name, references, code, constants⟩ := cell
  cases levels with
  | zero => simp [Raw.ofJson, Raw.depth] at hdepth
  | succ levels =>
      let document : List (String × Json) :=
        ("type", .string "cell") :: fields ⟨name, references, code, constants⟩
      have hname : Reader.withDefault none (.nullable .string) (levels + 1)
          ((document.lookup "name").map Raw.ofJson) = some name :=
        Reader.withDefault_lookup (Reader.inverts_nullable (fun s _ => Reader.inverts_string s) nofun)
          hdepth rfl
      have hreferences : Reader.withDefault [] (.list .string) (levels + 1)
          ((document.lookup "references").map Raw.ofJson) = some references :=
        Reader.withDefault_lookup (Reader.inverts_list fun s _ => Reader.inverts_string s) hdepth rfl
      have hcode : Reader.required .string (levels + 1) ((document.lookup "code").map Raw.ofJson) = some code :=
        Reader.required_lookup (Reader.inverts_string code) hdepth rfl
      have hconstants : Reader.withDefault none (.nullable Constants.reader) (levels + 1)
          ((document.lookup "constants").map Raw.ofJson) = some constants := by
        cases constants with
        | none => rfl
        | some c =>
            exact Reader.withDefault_lookup
              (Reader.inverts_nullable (fun d hd => Constants.inverts (h d hd)) nofun) hdepth rfl
      have hkeys : (document.map Prod.fst).Nodup := by cases constants <;> simp [document, fields]
      rw [reader, Reader.record_ofJson hkeys]
      simp only [List.map_cons, List.map_nil, Option.bind_eq_bind, Option.bind_some, hname, hreferences,
        hcode, hconstants]
      rfl

/-- The stored form of an import cell with its tag is read back without it. -/
theorem ImportCell.inverts (cell : ImportCell) :
    Inverts reader (fun cell => .object (("type", .string "import") :: cell.fields)) cell := by
  intro levels hdepth
  cases levels with
  | zero => simp [Raw.ofJson, Raw.depth] at hdepth
  | succ levels =>
      let document : List (String × Json) := ("type", .string "import") :: cell.fields
      have hsource : Reader.required .string (levels + 1) ((document.lookup "source").map Raw.ofJson) =
          some cell.source :=
        Reader.required_lookup (Reader.inverts_string cell.source) hdepth rfl
      have hspecifiers : Reader.withDefault [] (.list Binding.reader) (levels + 1)
          ((document.lookup "specifiers").map Raw.ofJson) = some cell.specifiers :=
        Reader.withDefault_lookup (Reader.inverts_list fun b _ => Binding.inverts b) hdepth rfl
      have hinjections : Reader.withDefault [] (.list Binding.reader) (levels + 1)
          ((document.lookup "injections").map Raw.ofJson) = some cell.injections :=
        Reader.withDefault_lookup (Reader.inverts_list fun b _ => Binding.inverts b) hdepth rfl
      have hkeys : (document.map Prod.fst).Nodup := by simp [document, fields]
      rw [reader, Reader.record_ofJson hkeys]
      simp only [List.map_cons, List.map_nil, Option.bind_eq_bind, Option.bind_some, hsource, hspecifiers,
        hinjections]
      rfl

namespace Descriptor

/-- A cell as it is held. -/
def Canonical : Descriptor → Prop
  | value cell => cell.Canonical
  | imports _ => True

/-- The tag of a stored cell is found among its fields. -/
theorem tag?_ofJson {tag : String} {fields : List (String × Json)}
    (h : ((("type", .string tag) :: fields).map Prod.fst).Nodup) :
    tag? (Raw.ofJson (.object (("type", .string tag) :: fields))) =
      some (tag, Raw.ofJson (.object (("type", .string tag) :: fields))) := by
  rw [Raw.ofJson, tag?, Reader.unique?_ofFields h]
  rfl

/-- A cell is read back. -/
theorem inverts {cell : Descriptor} (h : cell.Canonical) : Inverts reader document cell := by
  intro levels hdepth
  have hvalue := Raw.value?_ofJson cell.document levels hdepth
  cases cell with
  | value cell =>
      have hkeys : ((("type", Json.string "cell") :: cell.fields).map Prod.fst).Nodup := by
        obtain ⟨name, references, code, constants⟩ := cell
        cases constants <;> simp [ValueCell.fields]
      rw [document] at hvalue hdepth ⊢
      simp only [reader, hvalue, tag?_ofJson hkeys, Option.bind_eq_bind, Option.bind_some,
        ValueCell.inverts h levels hdepth, Option.map_some]
  | imports cell =>
      have hkeys : ((("type", Json.string "import") :: cell.fields).map Prod.fst).Nodup := by
        simp [ImportCell.fields]
      rw [document] at hvalue hdepth ⊢
      simp only [reader, hvalue, tag?_ofJson hkeys, Option.bind_eq_bind, Option.bind_some,
        ImportCell.inverts cell levels hdepth, Option.map_some]

end Descriptor

/-! ## Notebooks -/

namespace Notebook

/-- A notebook as it is held: objects in order, and constants with each key once. -/
structure Canonical (n : Notebook) : Prop where
  metadata : (Json.object n.metadata).Ordered
  cells : ∀ cell ∈ n.cells, cell.Canonical

/-- Metadata is read back. -/
theorem inverts_metadata {metadata : List (String × Json)} (h : (Json.object metadata).Ordered) :
    Inverts reader.objectFields Json.object metadata := by
  intro levels hdepth
  rw [reader.objectFields, Raw.value?_ofJson _ levels hdepth, Json.sorted_of_ordered _ h]
  rfl

/-- A notebook is read back. -/
theorem inverts {n : Notebook} (h : n.Canonical) : Inverts reader document n := by
  intro levels hdepth
  cases levels with
  | zero => simp [document, Raw.ofJson, Raw.depth] at hdepth
  | succ levels =>
      let fields : List (String × Json) :=
        [("meta", .object n.metadata), ("cells", .array (n.cells.map Descriptor.document))]
      have hmetadata : Reader.withDefault [] reader.objectFields (levels + 1)
          ((fields.lookup "meta").map Raw.ofJson) = some n.metadata :=
        Reader.withDefault_lookup (inverts_metadata h.metadata) hdepth rfl
      have hcells : Reader.withDefault [] (.list Descriptor.reader) (levels + 1)
          ((fields.lookup "cells").map Raw.ofJson) = some n.cells :=
        Reader.withDefault_lookup
          (Reader.inverts_list fun cell hcell => Descriptor.inverts (h.cells cell hcell)) hdepth rfl
      have hkeys : (fields.map Prod.fst).Nodup := by simp [fields]
      rw [reader, document, Reader.record_ofJson hkeys]
      simp only [List.map_cons, List.map_nil, Option.bind_eq_bind, Option.bind_some, hmetadata, hcells]
      rfl

end Notebook

/-! ## What is read -/

theorem Constants.yields : Reader.Yields Constants.reader Constants.Canonical := by
  intro levels raw c hread
  have hinner : Reader.Yields (fun levels raw => (Reader.fields .json levels raw).map Keyed.ofList)
      (fun literals => (literals.map Prod.fst).Nodup ∧ ∀ literal ∈ literals, literal.2.Ordered) := by
    intro levels raw literals hread
    obtain ⟨found, hfound, rfl⟩ := Option.map_eq_some_iff.mp hread
    obtain ⟨hnodup, hmem⟩ := Keyed.ofList_spec found
    have hordered := Reader.yields_fields Reader.yields_json levels raw found hfound
    exact ⟨hnodup, fun literal hliteral => hordered literal (hmem literal hliteral)⟩
  obtain ⟨found, hfound, rfl⟩ := Option.map_eq_some_iff.mp hread
  obtain ⟨hnodup, hmem⟩ := Keyed.ofList_spec found
  have hentries := Reader.yields_fields hinner levels raw found hfound
  exact ⟨hnodup, fun entry hentry => (hentries entry (hmem entry hentry)).1,
    fun entry hentry => (hentries entry (hmem entry hentry)).2⟩

theorem ValueCell.yields : Reader.Yields ValueCell.reader ValueCell.Canonical := by
  intro levels raw cell hread
  simp only [reader, Option.bind_eq_bind, Option.bind_eq_some_iff] at hread
  obtain ⟨found, -, hread⟩ := hread
  split at hread
  · simp only [Option.bind_eq_some_iff] at hread
    obtain ⟨name, -, references, -, code, -, constants, hconstants, hsame⟩ := hread
    cases hsame
    refine Reader.withDefault_yields (Reader.yields_nullable Constants.yields) ?_ hconstants
    rintro c ⟨⟩
  · cases hread

theorem Descriptor.yields : Reader.Yields Descriptor.reader Descriptor.Canonical := by
  intro levels raw cell hread
  simp only [reader, Option.bind_eq_bind, Option.bind_eq_some_iff, Prod.exists] at hread
  obtain ⟨value, -, tag, fields, -, hread⟩ := hread
  split at hread
  · obtain ⟨cell, hcell, rfl⟩ := Option.map_eq_some_iff.mp hread
    exact ValueCell.yields levels fields cell hcell
  · obtain ⟨cell, -, rfl⟩ := Option.map_eq_some_iff.mp hread
    trivial
  · cases hread

namespace Notebook

/-- A notebook that is read is held in order. -/
theorem yields : Reader.Yields reader Canonical := by
  have hmetadata : Reader.Yields reader.objectFields fun metadata => (Json.object metadata).Ordered := by
    intro levels raw metadata hread
    simp only [reader.objectFields, Option.bind_eq_bind, Option.bind_eq_some_iff] at hread
    obtain ⟨j, hj, hread⟩ := hread
    split at hread
    · cases hread
      exact Raw.ordered_of_value? raw levels _ hj
    · cases hread
  intro levels raw n hread
  simp only [reader, Option.bind_eq_bind, Option.bind_eq_some_iff] at hread
  obtain ⟨found, -, hread⟩ := hread
  split at hread
  · simp only [Option.bind_eq_some_iff] at hread
    obtain ⟨metadata, hfirst, cells, hsecond, hsame⟩ := hread
    cases hsame
    refine ⟨Reader.withDefault_yields hmetadata ⟨List.Pairwise.nil, trivial⟩ hfirst, ?_⟩
    exact Reader.withDefault_yields (Reader.yields_list Descriptor.yields) (List.forall_mem_nil _) hsecond
  · cases hread

/-- A notebook whose stored form is not nested too deep is read back from its text, with nothing changed: the
metadata, the order of cells, references, specifiers, injections and constants, what is missing, and every
character of every string. Of the floats in it, it is assumed that their texts are read as the same floats. The
notebook is to have its objects in order and each key of its constants once, as every notebook has that is
read. -/
theorem stored_notebook_reads_back :
    (∀ n : Notebook, n.Canonical → (Raw.ofJson n.document).depth ≤ Raw.maxDepth →
      (∀ x ∈ n.document.floats, Json.ReadsBack x) → parse? n.render = some n) ∧
    ∀ text n, parse? text = some n → n.Canonical := by
  refine ⟨fun n hcanonical hdepth hfloats => ?_, fun text n hparse => ?_⟩
  · rw [parse?, Reader.parse?, render, Raw.parse?_pretty hfloats, Option.bind_some]
    exact inverts hcanonical Raw.maxDepth hdepth
  · obtain ⟨raw, -, hread⟩ := Option.bind_eq_some_iff.mp hparse
    exact yields Raw.maxDepth raw n hread

/-- A notebook with cells of each kind, with constants that are missing, empty and out of order, and with
characters that are escaped. -/
def sampler : Notebook where
  metadata := [("meta", .number (.float ⟨false, ⟨0x3FB999999999999A, by decide⟩⟩)),
    ("π", .object [("\"", .null), ("\\", .array [.number (.negative ⟨0, by decide⟩), .bool true])])]
  cells := [
    .value { name := none, references := ["a\n", "\x01"], code := "function (a, b) \x7b\x7d",
             constants := some [] },
    .value { name := some "", references := [], code := "function () \x7b\x7d", constants := none },
    .value { name := some "π", references := [], code := "function () \x7b\x7d",
             constants := some [("z", [("y", .string "\x1f"), ("x", .object [])]), ("a", [])] },
    .imports { source := "@o/x", specifiers := [⟨"x", "y"⟩, ⟨"x", "y"⟩], injections := [] }]

theorem sampler_reads_back :
    sampler.Canonical ∧ (Raw.ofJson sampler.document).depth ≤ Raw.maxDepth ∧
      (∀ x ∈ sampler.document.floats, Json.ReadsBack x) ∧ parse? sampler.render = some sampler := by
  have hcanonical : sampler.Canonical := by
    constructor
    · simp only [sampler, Json.Ordered, Json.OrderedFields, Json.OrderedItems]
      decide
    · intro cell hcell
      simp only [sampler, List.mem_cons, List.not_mem_nil, or_false] at hcell
      rcases hcell with rfl | rfl | rfl | rfl
      · rintro c ⟨⟩
        exact ⟨List.nodup_nil, List.forall_mem_nil _, List.forall_mem_nil _⟩
      · rintro c ⟨⟩
      · rintro c ⟨⟩
        refine ⟨by decide, by decide, fun entry hentry => Json.orderedFields_iff.mp ?_⟩
        simp only [List.mem_cons, List.not_mem_nil, or_false] at hentry
        rcases hentry with rfl | rfl
        · exact ⟨trivial, ⟨List.Pairwise.nil, trivial⟩, trivial⟩
        · trivial
      · trivial
  have hdepth : (Raw.ofJson sampler.document).depth ≤ Raw.maxDepth := by decide
  have hfloats : ∀ x ∈ sampler.document.floats, Json.ReadsBack x := by
    have htenth : sampler.document.floats = [⟨false, ⟨0x3FB999999999999A, by decide⟩⟩] := rfl
    rw [htenth]
    decide +kernel
  exact ⟨hcanonical, hdepth, hfloats, stored_notebook_reads_back.1 sampler hcanonical hdepth hfloats⟩

end Notebook

end CellGraph
