import CellGraph.Proofs.Extraction
import Mathlib.Data.Finset.Card

/-!
# Parameters and tokens

The parameters of a cell's function come from two sources. A plain reference keeps its own name, and any
other takes the next of the tokens `$0`, `$1` and so on. `takers` says which references take one without a
word on how they are gathered, and `Assigned` what is bound to which parameter. One more reference keeps
the two in step (`Binds.gather`).

The two sources share one namespace: `$0` is a name like any other. A plain reference of that name is the
only way to a clash. It shows as a parameter that stands twice in the list (`Binds.nodup_parameters_iff`),
or as two references with one parameter between them (`Binds.length_eq_iff`).
-/

namespace CellGraph.Extraction

open Ast

/-! ## Names and tokens -/

theorem freshToken_injective : Function.Injective freshToken := by
  intro k l h
  have hchars := congrArg String.toList h
  rw [toList_freshToken, toList_freshToken] at hchars
  have hnumber := congrArg (Nat.ofDigitChars 10 · 0) (List.cons.inj hchars).2
  simpa only [Nat.ofDigitChars_ten_toDigits] using hnumber

/-- The name of a plain reference. -/
def plainName? (reference : Node) : Option String :=
  if Form.of reference = .plain then reference.name? else none

theorem innerName?_of_plain {reference : Node} (h : Form.of reference = .plain) :
    reference.innerName? = reference.name? := by
  rw [Form.of] at h
  rw [Node.innerName?]
  rcases hkind : reference.kind <;> rw [hkind] at h <;> first | rfl | cases h

theorem canonicalName?_of_plain {reference : Node} (h : Form.of reference = .plain) :
    canonicalName? reference = plainName? reference := by
  rw [canonicalName?, plainName?, if_pos h, innerName?_of_plain h, h]
  rcases reference.name? with _ | name
  · rfl
  · exact congrArg some (String.empty_append)

/-- A plain reference is known by its own name. -/
theorem canonicalName?_of_plainName? {reference : Node} {name : String}
    (h : plainName? reference = some name) : canonicalName? reference = some name := by
  by_cases hplain : Form.of reference = .plain
  · rw [canonicalName?_of_plain hplain, h]
  · rw [plainName?, if_neg hplain] at h
    cases h

/-- The canonical name of a view or mutable begins with its word. -/
theorem canonicalName?_front {reference : Node} {name : String} (h : plainName? reference = none)
    (hname : canonicalName? reference = some name) :
    ∃ rest, name.toList = 'v' :: rest ∨ name.toList = 'm' :: rest := by
  by_cases hplain : Form.of reference = .plain
  · rw [canonicalName?_of_plain hplain, h] at hname
    cases hname
  · obtain ⟨inner, -, rfl⟩ := Option.map_eq_some_iff.mp hname
    rw [String.toList_append]
    rcases hform : Form.of reference with _ | _ | _
    · exact absurd hform hplain
    · exact ⟨_, .inl rfl⟩
    · exact ⟨_, .inr rfl⟩

/-- So it is never a token. -/
theorem canonicalName?_ne_freshToken {reference : Node} (h : plainName? reference = none) (k : Nat) :
    canonicalName? reference ≠ some (freshToken k) := by
  intro hname
  obtain ⟨rest, hv | hm⟩ := canonicalName?_front h hname
  · rw [toList_freshToken] at hv
    exact absurd (List.cons.inj hv).1 (by decide)
  · rw [toList_freshToken] at hm
    exact absurd (List.cons.inj hm).1 (by decide)

theorem eraseDups_concat (names : List String) (name : String) :
    (names ++ [name]).eraseDups = names.eraseDups ++ if name ∈ names then [] else [name] := by
  rw [List.eraseDups_append]
  by_cases hname : name ∈ names <;> simp [List.removeAll, List.eraseDups_cons, hname]

/-! ## Who takes a token -/

/-- A reference takes a token if it has no name to keep, and no earlier reference has the same canonical
name. -/
def Takes (earlier : List Node) (reference : Node) : Prop :=
  plainName? reference = none ∧
    ∀ name ∈ canonicalName? reference, name ∉ earlier.filterMap canonicalName?

instance (earlier : List Node) (reference : Node) : Decidable (Takes earlier reference) :=
  inferInstanceAs (Decidable (_ ∧ _))

/-- Those of the references that take a token, after the given earlier ones. -/
def takersAfter (earlier : List Node) : List Node → List Node
  | [] => []
  | reference :: references =>
    if Takes earlier reference then reference :: takersAfter (earlier ++ [reference]) references
    else takersAfter (earlier ++ [reference]) references

/-- The references that take a token: the i-th of them takes the i-th. -/
def takers (references : List Node) : List Node :=
  takersAfter [] references

theorem takersAfter_concat (earlier references : List Node) (reference : Node) :
    takersAfter earlier (references ++ [reference]) =
      takersAfter earlier references ++
        if Takes (earlier ++ references) reference then [reference] else [] := by
  induction references generalizing earlier with
  | nil =>
      rw [List.nil_append, List.append_nil, takersAfter, takersAfter, takersAfter]
      split <;> rfl
  | cons first references ih =>
      rw [List.cons_append, takersAfter, takersAfter, ih, List.append_assoc, List.singleton_append]
      split <;> rfl

theorem takers_concat_of_takes {references : List Node} {reference : Node}
    (h : Takes references reference) :
    takers (references ++ [reference]) = takers references ++ [reference] := by
  rw [takers, takersAfter_concat, List.nil_append, if_pos h]
  rfl

theorem takers_concat_of_not {references : List Node} {reference : Node}
    (h : ¬ Takes references reference) : takers (references ++ [reference]) = takers references := by
  rw [takers, takersAfter_concat, List.nil_append, if_neg h, List.append_nil]
  rfl

theorem mem_takersAfter {earlier references : List Node} {d : Node}
    (h : d ∈ takersAfter earlier references) : d ∈ references ∧ plainName? d = none := by
  induction references generalizing earlier with
  | nil => cases h
  | cons reference references ih =>
      rw [takersAfter] at h
      split at h
      · rename_i htakes
        rcases List.mem_cons.mp h with rfl | hrest
        · exact ⟨List.mem_cons_self, htakes.1⟩
        · exact ⟨List.mem_cons_of_mem _ (ih hrest).1, (ih hrest).2⟩
      · exact ⟨List.mem_cons_of_mem _ (ih h).1, (ih h).2⟩

/-- Every reference without a name takes a token of its own. -/
theorem filter_takersAfter (earlier references : List Node) :
    (takersAfter earlier references).filter (canonicalName? · = none) =
      references.filter (canonicalName? · = none) := by
  induction references generalizing earlier with
  | nil => rfl
  | cons reference references ih =>
      rw [takersAfter, List.filter_cons]
      by_cases hnone : canonicalName? reference = none
      · have htakes : Takes earlier reference := by
          refine ⟨?_, fun name hname => ?_⟩
          · rcases hplain : plainName? reference with _ | name
            · rfl
            · exact (canonicalName?_of_plainName? hplain).symm.trans hnone
          · rw [hnone] at hname
            cases hname
        rw [if_pos htakes, List.filter_cons, ih]
      · split <;> simp [ih, hnone]

/-! ## What is bound to which parameter -/

/-- The dependency is read from the parameter: from the token that it takes, or from its own name if
that is the name of a plain reference. -/
def Assigned (references : List Node) (dependency parameter : String) : Prop :=
  (∃ i d, (takers references)[i]? = some d ∧ parameter = freshToken i ∧
    dependency = (canonicalName? d).getD parameter) ∨
  (parameter = dependency ∧ dependency ∈ references.filterMap plainName? ∧
    ∀ d ∈ takers references, canonicalName? d ≠ some dependency)

theorem mem_canonicalNames_of_plain {references : List Node} {name : String}
    (h : name ∈ references.filterMap plainName?) : name ∈ references.filterMap canonicalName? := by
  obtain ⟨reference, hreference, hname⟩ := List.mem_filterMap.mp h
  exact List.mem_filterMap.mpr ⟨reference, hreference, canonicalName?_of_plainName? hname⟩

theorem canonicalName?_ne_freshToken_of_mem_takers {references : List Node} {d : Node}
    (h : d ∈ takers references) (k : Nat) : canonicalName? d ≠ some (freshToken k) :=
  canonicalName?_ne_freshToken (mem_takersAfter h).2 k

/-- Only a view or a mutable is read from another name than its own. -/
theorem Assigned.eq_of_free {references : List Node} {dependency parameter : String}
    (h : Assigned references dependency parameter)
    (hfree : ∀ d ∈ takers references, canonicalName? d ≠ some dependency) :
    parameter = dependency := by
  rcases h with ⟨i, d, hd, -, hdependency⟩ | ⟨heq, -⟩
  · rcases hname : canonicalName? d with _ | name
    · rw [hname] at hdependency
      exact hdependency.symm
    · rw [hname] at hdependency
      exact absurd (hname.trans (congrArg some hdependency.symm)) (hfree d (List.mem_of_getElem? hd))
  · exact heq

/-- What is bound is a canonical name, or the token of a reference without one. -/
theorem Assigned.known {references : List Node} {dependency parameter : String}
    (h : Assigned references dependency parameter) :
    dependency ∈ references.filterMap canonicalName? ∨
      ∃ i d, (takers references)[i]? = some d ∧ canonicalName? d = none ∧ dependency = freshToken i := by
  rcases h with ⟨i, d, hd, hparameter, hdependency⟩ | ⟨-, hplain, -⟩
  · rcases hname : canonicalName? d with _ | name
    · rw [hname] at hdependency
      exact .inr ⟨i, d, hd, hname, hdependency.trans hparameter⟩
    · rw [hname] at hdependency
      obtain ⟨hmem, -⟩ := mem_takersAfter (List.mem_of_getElem? hd)
      exact .inl (List.mem_filterMap.mpr ⟨d, hmem, hname.trans (congrArg some hdependency.symm)⟩)
  · exact .inl (mem_canonicalNames_of_plain hplain)

theorem assigned_concat_of_takes {references : List Node} {reference : Node}
    (h : Takes references reference) (dependency parameter : String) :
    Assigned (references ++ [reference]) dependency parameter ↔
      Assigned references dependency parameter ∨
        parameter = freshToken (takers references).length ∧
          dependency = (canonicalName? reference).getD parameter := by
  rw [Assigned, Assigned, takers_concat_of_takes h]
  constructor
  · rintro (⟨i, d, hd, hparameter, hdependency⟩ | ⟨hparameter, hplain, hfree⟩)
    · rcases Nat.lt_trichotomy i (takers references).length with hlt | rfl | hgt
      · rw [List.getElem?_append_left hlt] at hd
        exact .inl (.inl ⟨i, d, hd, hparameter, hdependency⟩)
      · obtain rfl : reference = d := by simpa using hd
        exact .inr ⟨hparameter, hdependency⟩
      · rw [List.getElem?_eq_none (by rw [List.length_append]; exact hgt)] at hd
        cases hd
    · refine .inl (.inr ⟨hparameter, ?_, fun d hd => hfree d (List.mem_append_left _ hd)⟩)
      simpa [h.1] using hplain
  · rintro ((⟨i, d, hd, hparameter, hdependency⟩ | ⟨hparameter, hplain, hfree⟩) | ⟨hparameter, hdependency⟩)
    · refine .inl ⟨i, d, ?_, hparameter, hdependency⟩
      rw [List.getElem?_append_left (List.getElem?_eq_some_iff.mp hd).1, hd]
    · refine .inr ⟨hparameter, by simp only [List.filterMap_append, List.mem_append, hplain, true_or], ?_⟩
      intro d hd
      rcases List.mem_append.mp hd with hold | hnew
      · exact hfree d hold
      · obtain rfl := List.mem_singleton.mp hnew
        exact fun hname => h.2 dependency hname (mem_canonicalNames_of_plain hplain)
    · exact .inl ⟨(takers references).length, reference, by simp, hparameter, hdependency⟩

theorem assigned_concat_of_not {references : List Node} {reference : Node}
    (h : ¬ Takes references reference) (dependency parameter : String) :
    Assigned (references ++ [reference]) dependency parameter ↔
      Assigned references dependency parameter ∨
        parameter = dependency ∧ plainName? reference = some dependency ∧
          ∀ d ∈ takers references, canonicalName? d ≠ some dependency := by
  rw [Assigned, Assigned, takers_concat_of_not h, List.filterMap_append, List.mem_append]
  have hlast : dependency ∈ [reference].filterMap plainName? ↔ plainName? reference = some dependency := by
    rw [List.mem_filterMap]
    simp only [List.mem_singleton, exists_eq_left]
  rw [hlast, or_assoc, ← and_or_left, ← or_and_right]

/-- The state of gathering after some references: each canonical name is bound once, and to the parameter
that it is assigned. -/
structure Binds (references : List Node) (bound : List (String × String)) (issued : Nat) : Prop where
  issued : issued = (takers references).length
  distinct : (bound.map Prod.fst).Nodup
  covered : ∀ name ∈ references.filterMap canonicalName?, name ∈ bound.map Prod.fst
  assigned : ∀ entry, entry ∈ bound ↔ Assigned references entry.1 entry.2

theorem binds_nil : Binds [] [] 0 where
  issued := rfl
  distinct := List.nodup_nil
  covered := List.forall_mem_nil _
  assigned entry := by simp [Assigned, takers, takersAfter]

section

variable {references : List Node} {reference : Node} {bound : List (String × String)} {issued : Nat}

theorem Binds.keep (h : Binds references bound issued)
    (hname : ∀ name ∈ canonicalName? reference, name ∈ bound.map Prod.fst)
    (hassigned : ∀ name token, Assigned (references ++ [reference]) name token ↔
      Assigned references name token) :
    Binds (references ++ [reference]) bound (takers (references ++ [reference])).length where
  issued := rfl
  distinct := h.distinct
  covered name hmem := by
    rw [List.filterMap_append, List.mem_append] at hmem
    rcases hmem with hold | hnew
    · exact h.covered name hold
    · exact hname name (by simpa [List.mem_filterMap] using hnew)
  assigned entry := (h.assigned entry).trans (hassigned _ _).symm

theorem Binds.push (h : Binds references bound issued) {dependency parameter : String}
    (hnew : dependency ∉ bound.map Prod.fst)
    (hname : ∀ name ∈ canonicalName? reference, name = dependency)
    (hassigned : ∀ name token, Assigned (references ++ [reference]) name token ↔
      Assigned references name token ∨ name = dependency ∧ token = parameter) :
    Binds (references ++ [reference]) (bound ++ [(dependency, parameter)])
      (takers (references ++ [reference])).length where
  issued := rfl
  distinct := by
    rw [List.map_append, List.nodup_append_comm]
    exact List.nodup_cons.mpr ⟨hnew, h.distinct⟩
  covered name hmem := by
    rw [List.filterMap_append, List.mem_append] at hmem
    rw [List.map_append, List.mem_append]
    rcases hmem with hold | hlast
    · exact .inl (h.covered name hold)
    · exact .inr (List.mem_singleton.mpr (hname name (by simpa [List.mem_filterMap] using hlast)))
  assigned entry := by
    rw [List.mem_append, List.mem_singleton, h.assigned, hassigned, Prod.ext_iff]

/-- A reference whose canonical name is bound changes nothing. -/
theorem Binds.known (h : Binds references bound issued) {name : String}
    (hname : canonicalName? reference = some name) (hmem : name ∈ bound.map Prod.fst) :
    Binds (references ++ [reference]) bound issued := by
  obtain ⟨⟨_, parameter⟩, hentry, rfl⟩ := List.mem_map.mp hmem
  have hassigned : Assigned references _ parameter := (h.assigned _).mp hentry
  have hnot : ¬ Takes references reference := by
    rintro ⟨hplain, hfirst⟩
    rcases hassigned.known with hknown | ⟨i, d, -, -, htoken⟩
    · exact hfirst _ hname hknown
    · exact canonicalName?_ne_freshToken hplain i (hname.trans (congrArg some htoken))
  have hissued := h.issued
  rw [← takers_concat_of_not hnot] at hissued
  rw [hissued]
  refine h.keep (fun other hother => ?_) fun other token => ?_
  · rw [hname] at hother
    obtain rfl := Option.some.inj hother
    exact hmem
  · rw [assigned_concat_of_not hnot]
    refine ⟨?_, .inl⟩
    rintro (hold | ⟨rfl, hplain, hfree⟩)
    · exact hold
    · obtain rfl := Option.some.inj (hname.symm.trans (canonicalName?_of_plainName? hplain))
      exact hassigned.eq_of_free hfree ▸ hassigned

/-- A plain reference is bound to its own name. -/
theorem Binds.plain (h : Binds references bound issued) {name : String}
    (hplain : plainName? reference = some name) (hnew : name ∉ bound.map Prod.fst) :
    Binds (references ++ [reference]) (bound ++ [(name, name)]) issued := by
  have hnot : ¬ Takes references reference := by
    rintro ⟨hnone, -⟩
    exact absurd (hnone.symm.trans hplain) (by simp)
  have hissued := h.issued
  rw [← takers_concat_of_not hnot] at hissued
  rw [hissued]
  refine h.push hnew (fun other hother => ?_) fun other token => ?_
  · exact Option.some.inj (hother.symm.trans (canonicalName?_of_plainName? hplain))
  · rw [assigned_concat_of_not hnot, hplain]
    refine or_congr_right ⟨?_, ?_⟩
    · rintro ⟨rfl, hother, -⟩
      exact ⟨(Option.some.inj hother).symm, (Option.some.inj hother).symm⟩
    · rintro ⟨rfl, rfl⟩
      refine ⟨rfl, rfl, fun d hd hname => hnew (h.covered _ ?_)⟩
      exact List.mem_filterMap.mpr ⟨d, (mem_takersAfter hd).1, hname⟩

/-- A reference that takes a token is bound to it, unless the token itself is bound to its own name. -/
theorem Binds.take (h : Binds references bound issued) (htakes : Takes references reference)
    {dependency : String} (hdependency : dependency = (canonicalName? reference).getD (freshToken issued))
    (hnew : canonicalName? reference = none ∨ dependency ∉ bound.map Prod.fst) :
    Binds (references ++ [reference])
      (if dependency ∈ bound.map Prod.fst then bound else bound ++ [(dependency, freshToken issued)])
      (issued + 1) := by
  have hissued : issued + 1 = (takers (references ++ [reference])).length := by
    rw [takers_concat_of_takes htakes, List.length_append, ← h.issued]
    rfl
  have hname : ∀ name ∈ canonicalName? reference, name = dependency := by
    intro name hname
    rw [hdependency, hname]
    rfl
  have hassigned : ∀ name token, Assigned (references ++ [reference]) name token ↔
      Assigned references name token ∨ name = dependency ∧ token = freshToken issued := by
    intro name token
    rw [assigned_concat_of_takes htakes, ← h.issued, hdependency, and_comm]
    refine or_congr_right (and_congr_left ?_)
    rintro rfl
    rfl
  rw [hissued]
  split
  · rename_i hmem
    rcases hnew with hnone | hnew
    · refine h.keep (fun name hname' => hname name hname' ▸ hmem) fun name token => ?_
      rw [hassigned]
      refine ⟨?_, .inl⟩
      rintro (hold | ⟨rfl, rfl⟩)
      · exact hold
      · rw [hnone] at hdependency
        obtain ⟨⟨_, parameter⟩, hentry, rfl⟩ := List.mem_map.mp hmem
        have hold : Assigned references _ parameter := (h.assigned _).mp hentry
        rw [show parameter = freshToken issued from ?_] at hold
        · exact hold
        · refine (hold.eq_of_free fun d hd => ?_).trans hdependency
          rw [hdependency]
          exact canonicalName?_ne_freshToken_of_mem_takers hd issued
    · exact absurd hmem hnew
  · rename_i hmem
    exact h.push hmem hname hassigned

end

/-! ## Gathering -/

theorem isSome_lookup_iff {bound : List (String × String)} {name : String} :
    (bound.lookup name).isSome ↔ name ∈ bound.map Prod.fst := by
  rw [List.lookup_isSome_iff, List.mem_map]
  exact exists_congr fun entry => and_congr_right fun _ => beq_iff_eq.trans eq_comm

theorem lookup_eq_none_iff_not_mem {bound : List (String × String)} {name : String} :
    bound.lookup name = none ↔ name ∉ bound.map Prod.fst := by
  rw [← isSome_lookup_iff, Bool.not_eq_true, Option.isSome_eq_false_iff, Option.isNone_iff_eq_none]

theorem chooseToken_of_known {g : Gathered} {reference : Node} {name : String}
    (hname : canonicalName? reference = some name) (hmem : name ∈ g.bound.map Prod.fst) :
    ∃ token, chooseToken g reference = (token, false) := by
  obtain ⟨token, hlookup⟩ := Option.isSome_iff_exists.mp (isSome_lookup_iff.mpr hmem)
  refine ⟨token, ?_⟩
  rw [chooseToken, hname, Option.bind_some, hlookup]

theorem chooseToken_of_plain {g : Gathered} {reference : Node} {name : String}
    (hplain : plainName? reference = some name) (hnew : name ∉ g.bound.map Prod.fst) :
    chooseToken g reference = (name, false) := by
  rw [chooseToken, canonicalName?_of_plainName? hplain, Option.bind_some,
    lookup_eq_none_iff_not_mem.mpr hnew]
  rw [plainName?] at hplain
  split_ifs at hplain with hform
  rw [hform, hplain]

theorem chooseToken_of_takes {g : Gathered} {reference : Node} (hplain : plainName? reference = none)
    (hnew : ∀ name ∈ canonicalName? reference, name ∉ g.bound.map Prod.fst) :
    chooseToken g reference = (freshToken g.issued, true) := by
  have hlookup : (canonicalName? reference).bind (g.bound.lookup ·) = none := by
    rw [Option.bind_eq_none_iff]
    exact fun name hname => lookup_eq_none_iff_not_mem.mpr (hnew name hname)
  rw [chooseToken, hlookup]
  dsimp only
  split
  · rename_i name hform hname
    rw [plainName?, if_pos hform, hname] at hplain
    cases hplain
  · rfl

/-- What one reference binds. -/
theorem gather_bound {body reference : Node} {source : List Char} {g g' : Gathered}
    (h : gather body source g reference = .ok g') {token : String} {isNew : Bool}
    (hchoose : chooseToken g reference = (token, isNew)) {name : String}
    (hname : name = (canonicalName? reference).getD token) :
    g'.bound = (if name ∈ g.bound.map Prod.fst then g.bound else g.bound ++ [(name, token)]) ∧
      g'.issued = if isNew then g.issued + 1 else g.issued := by
  rw [gather, hchoose] at h
  dsimp only at h
  rw [← hname] at h
  simp only [isSome_lookup_iff] at h
  split at h
  · obtain ⟨patches, -, hg'⟩ := bind_eq_ok h
    obtain rfl := Except.ok.inj hg'
    exact ⟨rfl, rfl⟩
  · obtain rfl := Except.ok.inj h
    exact ⟨rfl, rfl⟩

/-- One more reference binds what it should. -/
theorem Binds.gather {body reference : Node} {source : List Char} {g g' : Gathered}
    {references : List Node} (h : Binds references g.bound g.issued)
    (hok : Extraction.gather body source g reference = .ok g') :
    Binds (references ++ [reference]) g'.bound g'.issued := by
  by_cases hknown : ∃ name ∈ canonicalName? reference, name ∈ g.bound.map Prod.fst
  · -- bound already
    obtain ⟨name, hname, hmem⟩ := hknown
    obtain ⟨token, hchoose⟩ := chooseToken_of_known hname hmem
    have hcanonical : name = (canonicalName? reference).getD token := by rw [hname]; rfl
    obtain ⟨hbound, hissued⟩ := gather_bound hok hchoose hcanonical
    rw [hbound, if_pos hmem, hissued, if_neg Bool.false_ne_true]
    exact h.known hname hmem
  push Not at hknown
  rcases hplain : plainName? reference with _ | name
  · -- a view, a mutable or a reference without a name
    obtain ⟨hbound, hissued⟩ := gather_bound hok (chooseToken_of_takes hplain hknown) rfl
    rw [hbound, hissued, if_pos rfl]
    refine h.take ⟨hplain, fun name hname hmem => hknown name hname (h.covered name hmem)⟩ rfl ?_
    rcases hname : canonicalName? reference with _ | name
    · exact .inl rfl
    · exact .inr (hknown name hname)
  · -- a plain reference
    have hname := canonicalName?_of_plainName? hplain
    have hnew := hknown name hname
    have hcanonical : name = (canonicalName? reference).getD name := by rw [hname]; rfl
    obtain ⟨hbound, hissued⟩ := gather_bound hok (chooseToken_of_plain hplain hnew) hcanonical
    rw [hbound, if_neg hnew, hissued, if_neg Bool.false_ne_true]
    exact h.plain hplain hnew

/-- So do all of them. -/
theorem binds_of_foldlM {body : Node} {source : List Char} {g : Gathered} {references : List Node}
    (h : references.foldlM (Extraction.gather body source) {} = .ok g) :
    Binds references g.bound g.issued := by
  refine foldlM_prefix_invariant (P := fun earlier g => Binds earlier g.bound g.issued) ?_ binds_nil h
  intro reference _ earlier before after hbefore hok
  exact hbefore.gather hok

/-! ## Clashes -/

section

variable {references : List Node} {bound : List (String × String)} {issued : Nat}

/-- A parameter stands twice in the list just if a plain reference has the token of a view or mutable for
its name. -/
theorem Binds.nodup_parameters_iff (h : Binds references bound issued) :
    (bound.map Prod.snd).Nodup ↔ ∀ i d, (takers references)[i]? = some d → canonicalName? d ≠ none →
      freshToken i ∉ references.filterMap plainName? := by
  rw [List.nodup_map_iff_inj_on h.distinct.of_map]
  constructor
  · intro hinj i d hd hnamed hplain
    obtain ⟨name, hname⟩ := Option.ne_none_iff_exists'.mp hnamed
    have htaken : (name, freshToken i) ∈ bound :=
      (h.assigned _).mpr (.inl ⟨i, d, hd, rfl, by rw [hname]; rfl⟩)
    have hkept : (freshToken i, freshToken i) ∈ bound :=
      (h.assigned _).mpr (.inr ⟨rfl, hplain, fun d hd =>
        canonicalName?_ne_freshToken_of_mem_takers hd i⟩)
    have hsame : name = freshToken i := congrArg Prod.fst (hinj _ htaken _ hkept rfl)
    exact canonicalName?_ne_freshToken_of_mem_takers (List.mem_of_getElem? hd) i (hsame ▸ hname)
  · intro hfree
    -- what is read from the name of a plain reference has that name itself
    have hkept : ∀ name token, Assigned references name token →
        token ∈ references.filterMap plainName? → name = token := by
      rintro name token (⟨i, d, hd, rfl, hname⟩ | ⟨rfl, -⟩) hplain
      · by_cases hnone : canonicalName? d = none
        · rw [hname, hnone]
          rfl
        · exact absurd hplain (hfree i d hd hnone)
      · rfl
    rintro ⟨name, token⟩ hentry ⟨name', _⟩ hentry' rfl
    have hassigned : Assigned references name token := (h.assigned _).mp hentry
    have hassigned' : Assigned references name' token := (h.assigned _).mp hentry'
    by_cases hplain : token ∈ references.filterMap plainName?
    · rw [hkept _ _ hassigned hplain, hkept _ _ hassigned' hplain]
    · rcases hassigned with ⟨i, d, hd, hi, hname⟩ | ⟨rfl, hmem, -⟩
      · rcases hassigned' with ⟨j, d', hd', hj, hname'⟩ | ⟨rfl, hmem, -⟩
        · obtain rfl := freshToken_injective (hi.symm.trans hj)
          obtain rfl := Option.some.inj (hd.symm.trans hd')
          rw [hname, hname']
        · exact absurd hmem hplain
      · exact absurd hmem hplain

/-- The tokens of the references without a name. -/
def namelessTokens (references : List Node) : List String :=
  ((takers references).zipIdx.filter (canonicalName? ·.1 = none)).map (freshToken ·.2)

theorem mem_namelessTokens {token : String} : token ∈ namelessTokens references ↔
    ∃ i d, (takers references)[i]? = some d ∧ canonicalName? d = none ∧ token = freshToken i := by
  simp only [namelessTokens, List.mem_map, List.mem_filter, List.mem_zipIdx_iff_getElem?,
    decide_eq_true_eq]
  constructor
  · rintro ⟨⟨d, i⟩, ⟨hd, hnone⟩, rfl⟩
    exact ⟨i, d, hd, hnone, rfl⟩
  · rintro ⟨i, d, hd, hnone, rfl⟩
    exact ⟨⟨d, i⟩, ⟨hd, hnone⟩, rfl⟩

theorem nodup_namelessTokens (references : List Node) : (namelessTokens references).Nodup := by
  have hindices : (((takers references).zipIdx.filter (canonicalName? ·.1 = none)).map Prod.snd).Nodup := by
    refine List.Nodup.sublist (List.filter_sublist.map Prod.snd) ?_
    rw [List.zipIdx_map_snd]
    exact List.nodup_range'
  have htokens := hindices.map freshToken_injective
  rwa [List.map_map] at htokens

theorem length_namelessTokens (references : List Node) :
    (namelessTokens references).length = (references.filter (canonicalName? · = none)).length := by
  rw [namelessTokens, List.length_map, ← filter_takersAfter [], ← takers]
  conv_rhs => rw [← List.zipIdx_map_fst 0 (takers references), List.filter_map, List.length_map]
  rfl

/-- How many things the references refer to: each canonical name is one, and each reference without a name
is one of its own. -/
def dependencies (references : List Node) : Nat :=
  (references.filterMap canonicalName?).dedup.length +
    (references.filter (canonicalName? · = none)).length

/-- There are as many parameters as dependencies unless a plain reference has the token of a reference
without a name for its own. -/
theorem Binds.length_eq_iff (h : Binds references bound issued) :
    bound.length = dependencies references ↔
      ∀ i d, (takers references)[i]? = some d → canonicalName? d = none →
        freshToken i ∉ references.filterMap plainName? := by
  have hkeys : (bound.map Prod.fst).toFinset =
      (references.filterMap canonicalName?).toFinset ∪ (namelessTokens references).toFinset := by
    ext name
    rw [Finset.mem_union, List.mem_toFinset, List.mem_toFinset, List.mem_toFinset, mem_namelessTokens]
    constructor
    · intro hmem
      obtain ⟨⟨_, parameter⟩, hentry, rfl⟩ := List.mem_map.mp hmem
      exact ((h.assigned _).mp hentry).known
    · rintro (hname | ⟨i, d, hd, hnone, rfl⟩)
      · exact h.covered name hname
      · have hentry : (freshToken i, freshToken i) ∈ bound :=
          (h.assigned _).mpr (.inl ⟨i, d, hd, rfl, by rw [hnone]; rfl⟩)
        exact List.mem_map_of_mem hentry
  rw [← List.length_map Prod.fst, ← List.toFinset_card_of_nodup h.distinct, hkeys, dependencies,
    ← List.card_toFinset, ← length_namelessTokens,
    ← List.toFinset_card_of_nodup (nodup_namelessTokens references), Finset.card_union_eq_card_add_card,
    List.disjoint_toFinset_iff_disjoint]
  constructor
  · intro hdisjoint i d hd hnone hplain
    exact hdisjoint (mem_canonicalNames_of_plain hplain) (mem_namelessTokens.mpr ⟨i, d, hd, hnone, rfl⟩)
  · intro hfree name hname htoken
    obtain ⟨i, d, hd, hnone, rfl⟩ := mem_namelessTokens.mp htoken
    obtain ⟨reference, hreference, hcanonical⟩ := List.mem_filterMap.mp hname
    rcases hplain : plainName? reference with _ | own
    · exact canonicalName?_ne_freshToken hplain i hcanonical
    · obtain rfl := Option.some.inj ((canonicalName?_of_plainName? hplain).symm.trans hcanonical)
      exact hfree i d hd hnone (List.mem_filterMap.mpr ⟨reference, hreference, hplain⟩)

end

/-- Every canonical name is bound once, to the parameter that it is assigned. The parameters are pairwise
distinct unless a plain reference has the token of a view or mutable for its name; and they are also as
many as the dependencies, so that each can be read under a parameter of its own, unless a plain reference
has any token for its name that the cell gives out. -/
theorem parameters_distinct_iff (p : ParsedCell) (e : Extracted) (hextract : extract p = .ok e) :
    e.references.Nodup ∧
    (∀ dependency parameter, (dependency, parameter) ∈ e.references.zip e.parameters ↔
      Assigned p.references dependency parameter) ∧
    (e.parameters.Nodup ↔
      ∀ i d, (takers p.references)[i]? = some d → canonicalName? d ≠ none →
        freshToken i ∉ p.references.filterMap plainName?) ∧
    (e.parameters.Nodup ∧ e.parameters.length = dependencies p.references ↔
      ∀ i < (takers p.references).length, freshToken i ∉ p.references.filterMap plainName?) := by
  obtain ⟨body, source, g, -, -, hg, hreferences, hparameters, -⟩ := extract_eq_ok hextract
  have h := binds_of_foldlM hg
  rw [hreferences, hparameters, List.length_map, h.nodup_parameters_iff, h.length_eq_iff]
  refine ⟨h.distinct, fun dependency parameter => ?_, Iff.rfl, ?_⟩
  · have hbound : (g.bound.map fun entry => (entry.1, entry.2)) = g.bound := List.map_id _
    rw [List.zip_map', hbound]
    exact h.assigned _
  · constructor
    · rintro ⟨hnamed, hnameless⟩ i hi
      have hd := List.getElem?_eq_getElem hi
      by_cases hname : canonicalName? (takers p.references)[i] = none
      · exact hnameless i _ hd hname
      · exact hnamed i _ hd hname
    · intro hfree
      have hbelow : ∀ i d, (takers p.references)[i]? = some d →
          freshToken i ∉ p.references.filterMap plainName? :=
        fun i d hd => hfree i (List.getElem?_eq_some_iff.mp hd).1
      exact ⟨fun i d hd _ => hbelow i d hd, fun i d hd _ => hbelow i d hd⟩

/-- A view twice, a plain name with a dollar sign, a reference without a name and a mutable. -/
theorem parameters_distinct_iff_mixed :
    let node (type : String) (others : List (String × Json)) : Json :=
      .object (("type", .string type) :: others)
    let named (name : String) : Json := node "Identifier" [("name", .string name)]
    let view := node "ViewExpression" [("id", named "x")]
    let p : ParsedCell := {
      input := "0"
      cell := {
        id := none
        body := node "Literal" [("start", .ofNat 0), ("end", .ofNat 1)]
        references := [view, named "$3", node "Super" [], view, node "MutableExpression" [("id", named "x")]]
        isAsync := false
        isGenerator := false } }
    ∃ e, extract p = .ok e ∧ e.references = ["viewof x", "$3", "$1", "mutable x"] ∧
      e.parameters = ["$0", "$3", "$1", "$2"] ∧ e.parameters.Nodup ∧
      e.parameters.length = dependencies p.references := by
  intro node named view p
  have hdata : (extract p).toOption.map (fun e => (e.references, e.parameters)) =
      some (["viewof x", "$3", "$1", "mutable x"], ["$0", "$3", "$1", "$2"]) := by decide +kernel
  have hfree : ∀ i < (takers p.references).length,
      freshToken i ∉ p.references.filterMap plainName? := by decide +kernel
  rcases he : extract p with error | e
  · rw [he] at hdata
    cases hdata
  rw [he] at hdata
  obtain ⟨hreferences, hparameters⟩ := Prod.mk.inj (Option.some.inj hdata)
  obtain ⟨-, -, -, hown⟩ := parameters_distinct_iff p e he
  obtain ⟨hnodup, hlength⟩ := hown.mpr hfree
  exact ⟨e, rfl, hreferences, hparameters, hnodup, hlength⟩

/-- A plain reference to `$0` beside a view: the two share a parameter, and the view cannot be told from
the plain reference in the body. -/
theorem parameters_not_distinct_beside_view :
    let named (name : String) (start stop : Nat) : Json :=
      .object [("type", .string "Identifier"), ("start", .ofNat start), ("end", .ofNat stop),
        ("name", .string name)]
    let view : Json := .object [("type", .string "ViewExpression"), ("start", .ofNat 0),
      ("end", .ofNat 8), ("id", named "x" 7 8)]
    let plain := named "$0" 11 13
    let p : ParsedCell := {
      input := "viewof x + $0"
      cell := {
        id := none
        body := .object [("type", .string "BinaryExpression"), ("start", .ofNat 0), ("end", .ofNat 13),
          ("left", view), ("right", plain)]
        references := [view, plain]
        isAsync := false
        isGenerator := false } }
    ∃ e, extract p = .ok e ∧ e.references = ["viewof x", "$0"] ∧ e.parameters = ["$0", "$0"] ∧
      ¬ e.parameters.Nodup ∧ e.code = "function ($0,$0) \x7b\nreturn ($0 + $0);\n\x7d" := by
  intro named view plain p
  have hdata : (extract p).toOption.map (fun e => (e.references, e.parameters, e.code)) =
      some (["viewof x", "$0"], ["$0", "$0"],
        "function ($0,$0) \x7b\nreturn ($0 + $0);\n\x7d") := by decide +kernel
  rcases he : extract p with error | e
  · rw [he] at hdata
    cases hdata
  rw [he] at hdata
  obtain ⟨hreferences, hrest⟩ := Prod.mk.inj (Option.some.inj hdata)
  obtain ⟨hparameters, hcode⟩ := Prod.mk.inj hrest
  refine ⟨e, rfl, hreferences, hparameters, ?_, hcode⟩
  rw [hparameters]
  decide

end CellGraph.Extraction
