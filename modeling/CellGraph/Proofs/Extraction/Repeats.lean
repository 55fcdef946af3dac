import CellGraph.Proofs.Extraction.Occurrences

/-!
# References that repeat

The references of a cell may mention one thing many times. `mentions` lists what they mention one after the
other, a canonical name or the token of a reference without one. The first mention of each is bound, to the
parameter that its reference brings along (`Lists.gather`), and later mentions find it bound.

A reference with a name that says the same as an earlier one therefore binds nothing and takes no token. Nor
does it change a patch, if the views and mutables of the body all start at different places: the patches that
it adds are there already (`gather_of_repeats`). So it can be left out (`foldlM_withoutRepeats`).
-/

namespace CellGraph.Extraction

open Ast

/-! ## First mentions -/

/-- What a reference mentions after some earlier ones: its canonical name, or the token that it takes if it
has none. -/
def mention (earlier : List Node) (reference : Node) : String :=
  (canonicalName? reference).getD (freshToken (takers earlier).length)

/-- What each of the references mentions, after the given earlier ones. -/
def mentionsAfter (earlier : List Node) : List Node → List String
  | [] => []
  | reference :: references =>
    mention earlier reference :: mentionsAfter (earlier ++ [reference]) references

/-- What each of the references mentions. -/
def mentions (references : List Node) : List String :=
  mentionsAfter [] references

/-- The parameter that a reference brings along: its own name if it is plain, or the next token. -/
def ownParameter (earlier : List Node) (reference : Node) : String :=
  (plainName? reference).getD (freshToken (takers earlier).length)

theorem mentionsAfter_concat (earlier references : List Node) (reference : Node) :
    mentionsAfter earlier (references ++ [reference]) =
      mentionsAfter earlier references ++ [mention (earlier ++ references) reference] := by
  induction references generalizing earlier with
  | nil => simp [mentionsAfter]
  | cons first references ih => simp [mentionsAfter, ih]

theorem mentions_concat (references : List Node) (reference : Node) :
    mentions (references ++ [reference]) = mentions references ++ [mention references reference] :=
  mentionsAfter_concat [] references reference

section

variable {body reference : Node} {source : List Char} {earlier : List Node} {g g' : Gathered}

/-- A reference binds what it mentions to its own parameter, unless that is bound already. -/
theorem gather_mention (hbinds : Binds earlier g.bound g.issued)
    (h : gather body source g reference = .ok g') :
    g'.bound = if mention earlier reference ∈ g.bound.map Prod.fst then g.bound
      else g.bound ++ [(mention earlier reference, ownParameter earlier reference)] := by
  rw [mention, ownParameter, ← hbinds.issued]
  by_cases hknown : ∃ name ∈ canonicalName? reference, name ∈ g.bound.map Prod.fst
  · obtain ⟨name, hname, hmem⟩ := hknown
    obtain ⟨token, hchoose⟩ := chooseToken_of_known hname hmem
    obtain ⟨hbound, -⟩ := gather_bound h hchoose rfl
    rw [hname, Option.getD_some, if_pos hmem] at hbound
    rw [hname, Option.getD_some, if_pos hmem, hbound]
  push Not at hknown
  rcases hplain : plainName? reference with _ | name
  · exact (gather_bound h (chooseToken_of_takes hplain hknown) rfl).1
  · have hname := canonicalName?_of_plainName? hplain
    obtain ⟨hbound, -⟩ := gather_bound h (chooseToken_of_plain hplain (hknown name hname)) rfl
    rw [hname] at hbound ⊢
    exact hbound

/-- The state of gathering after some references: each thing mentioned is bound in the order of the first
mentions, to the parameter that the first of its references brought along. -/
structure Lists (references : List Node) (bound : List (String × String)) : Prop where
  names : bound.map Prod.fst = (mentions references).eraseDups
  parameters : ∀ earlier reference later, references = earlier ++ reference :: later →
    mention earlier reference ∉ mentions earlier →
      bound.lookup (mention earlier reference) = some (ownParameter earlier reference)

theorem lists_nil : Lists [] [] where
  names := rfl
  parameters earlier reference later h := absurd h (by simp)

/-- One more reference keeps it so. -/
theorem Lists.gather (hlists : Lists earlier g.bound) (hbinds : Binds earlier g.bound g.issued)
    (h : Extraction.gather body source g reference = .ok g') :
    Lists (earlier ++ [reference]) g'.bound := by
  have hbound := gather_mention hbinds h
  have hmem : mention earlier reference ∈ g.bound.map Prod.fst ↔
      mention earlier reference ∈ mentions earlier := by
    rw [hlists.names, List.mem_eraseDups]
  refine ⟨?_, fun before other after hsplit hfirst => ?_⟩
  · rw [mentions_concat, eraseDups_concat, ← hlists.names, hbound]
    split_ifs with hbefore hbefore' hbefore'
    · rw [List.append_nil]
    · exact absurd (hmem.mp hbefore) hbefore'
    · exact absurd (hmem.mpr hbefore') hbefore
    · rw [List.map_append]
      rfl
  · rcases List.eq_nil_or_concat after with rfl | ⟨after, last, rfl⟩
    · -- the reference just gathered
      obtain ⟨rfl, hlast⟩ := List.append_inj' hsplit rfl
      obtain rfl := (List.cons.inj hlast).1
      have hnew : mention earlier reference ∉ g.bound.map Prod.fst := fun hold => hfirst (hmem.mp hold)
      rw [hbound, if_neg hnew, List.lookup_append, lookup_eq_none_iff_not_mem.mpr hnew]
      simp
    · -- an earlier one, whose parameter stays
      rw [List.concat_eq_append, ← List.cons_append, ← List.append_assoc] at hsplit
      obtain ⟨hsplit, -⟩ := List.append_inj' hsplit rfl
      obtain ⟨added, hadded⟩ := gather_bound_append h
      rw [hadded, List.lookup_append, hlists.parameters before other after hsplit hfirst]
      rfl

/-- So do all of them. -/
theorem lists_of_foldlM {references : List Node}
    (h : references.foldlM (Extraction.gather body source) {} = .ok g) : Lists references g.bound := by
  suffices hboth : Binds references g.bound g.issued ∧ Lists references g.bound from hboth.2
  refine foldlM_prefix_invariant (P := fun earlier g => Binds earlier g.bound g.issued ∧
    Lists earlier g.bound) ?_ ⟨binds_nil, lists_nil⟩ h
  rintro reference - earlier before after ⟨hbinds, hlists⟩ hok
  exact ⟨hbinds.gather hok, hlists.gather hbinds hok⟩

/-! ## Leaving out repeats -/

/-- A reference with a name that says the same as an earlier one. -/
def Repeats (earlier : List Node) (reference : Node) : Prop :=
  reference.innerName? ≠ none ∧ ∃ other ∈ earlier, Alike other reference

instance (earlier : List Node) (reference : Node) : Decidable (Repeats earlier reference) :=
  inferInstanceAs (Decidable (_ ∧ _))

/-- The items of a list of references without those that repeat one before them. -/
def withoutRepeatsAfter (earlier : List Node) : List Json → List Json
  | [] => []
  | item :: items =>
    match Node.ofJson? item with
    | some reference =>
      if Repeats earlier reference then withoutRepeatsAfter (earlier ++ [reference]) items
      else item :: withoutRepeatsAfter (earlier ++ [reference]) items
    | none => item :: withoutRepeatsAfter earlier items

/-- A cell without the references that repeat an earlier one. -/
def withoutRepeats (p : ParsedCell) : ParsedCell :=
  { p with cell := { p.cell with references := withoutRepeatsAfter [] p.cell.references } }

/-- A reference that repeats an earlier one changes nothing. -/
theorem gather_of_repeats (hbody : Node.ofFields? body.fields = some body)
    (hplaced : Placed body earlier g) (hbinds : Binds earlier g.bound g.issued)
    (hrepeats : Repeats earlier reference) (h : gather body source g reference = .ok g') : g' = g := by
  obtain ⟨hnamed, other, hother, halike⟩ := hrepeats
  obtain ⟨name, hname⟩ := exists_canonicalName? hnamed
  have hmem : name ∈ g.bound.map Prod.fst :=
    hbinds.covered name (List.mem_filterMap.mpr ⟨other, hother, halike.canonicalName?_eq.trans hname⟩)
  obtain ⟨token, hchoose⟩ := chooseToken_of_known hname hmem
  obtain ⟨hbound, hissued⟩ := gather_bound h hchoose rfl
  rw [hname, Option.getD_some, if_pos hmem] at hbound
  rw [if_neg Bool.false_ne_true] at hissued
  have hpatches : g'.patches = g.patches := by
    rw [(gather_patches h).2]
    refine hplaced.ordered.insertAll_of_subset fun patch hpatch => ?_
    obtain ⟨hdecorated, node, hnode, rfl⟩ := mem_addedPatches.mp hpatch
    -- the other reference has left this very patch for the node
    obtain ⟨hdescends, hsame⟩ := (mem_occurrences hbody).mp hnode
    have hfound : node ∈ occurrences body other :=
      (mem_occurrences hbody).mpr ⟨hdescends, hsame.1.trans halike.1.symm, hsame.2.trans halike.2.symm⟩
    obtain ⟨left, hleft, hstands⟩ := hplaced.placed other hother
      (halike.decorated_iff.mpr hdecorated) (halike.2 ▸ hnamed) node hfound
    rw [← hbound] at hstands
    exact (stands_of_mem hbody h hdecorated hnamed hnode).unique hstands ▸ hleft
  rcases g with ⟨bound, patches, issued⟩
  rcases g' with ⟨bound', patches', issued'⟩
  exact Gathered.mk.injEq .. ▸ ⟨hbound, hpatches, hissued⟩

/-- Leaving out repeats leaves the same things gathered. -/
theorem foldlM_withoutRepeats {references : List Node} {items : List Json}
    (hbody : Node.ofFields? body.fields = some body) (hseparate : Separate body references)
    (hearlier : ∀ other ∈ earlier, other ∈ references)
    (hitems : ∀ other ∈ items.filterMap Node.ofJson?, other ∈ references)
    (hplaced : Placed body earlier g) (hbinds : Binds earlier g.bound g.issued)
    (h : (items.filterMap Node.ofJson?).foldlM (gather body source) g = .ok g') :
    ((withoutRepeatsAfter earlier items).filterMap Node.ofJson?).foldlM (gather body source) g =
      .ok g' := by
  induction items generalizing earlier g with
  | nil => exact h
  | cons item items ih =>
      rw [withoutRepeatsAfter]
      rcases hitem : Node.ofJson? item with _ | reference
      · rw [List.filterMap_cons_none hitem] at h hitems
        dsimp only
        rw [List.filterMap_cons_none hitem]
        exact ih hearlier hitems hplaced hbinds h
      · rw [List.filterMap_cons_some hitem] at h hitems
        rw [List.foldlM_cons] at h
        obtain ⟨hreference, hitems⟩ := List.forall_mem_cons.mp hitems
        obtain ⟨next, hnext, hrest⟩ := bind_eq_ok h
        have hall : ∀ other ∈ earlier ++ [reference], other ∈ references :=
          List.forall_mem_append.mpr ⟨hearlier, List.forall_mem_singleton.mpr hreference⟩
        have hkept := ih hall hitems (hplaced.gather hbody hseparate hearlier hreference hnext)
          (hbinds.gather hnext) hrest
        dsimp only
        split_ifs with hrepeats
        · rwa [gather_of_repeats hbody hplaced hbinds hrepeats hnext] at hkept
        · rw [List.filterMap_cons_some hitem, List.foldlM_cons, hnext]
          exact hkept

end

/-- The references of an extracted cell are what its reference nodes mention, each once and in the order of
the first mentions, and each stands beside the parameter that its first reference brought along. If no two
views or mutables of the body start at one place, references that repeat an earlier one make no difference
to anything that is extracted. -/
theorem references_are_first_mentions (p : ParsedCell) (e : Extracted) (hextract : extract p = .ok e) :
    e.references.Nodup ∧ e.references = (mentions p.references).eraseDups ∧
    e.parameters.length = e.references.length ∧
    (∀ earlier reference later, p.references = earlier ++ reference :: later →
      mention earlier reference ∉ mentions earlier →
        (e.references.zip e.parameters).lookup (mention earlier reference) =
          some (ownParameter earlier reference)) ∧
    (∀ body, p.body = .ok body → StartsApart body → extract (withoutRepeats p) = .ok e) := by
  obtain ⟨body, source, g, hbody, hsource, hg, hreferences, hparameters, -⟩ := extract_eq_ok hextract
  have hlists := lists_of_foldlM hg
  refine ⟨?_, ?_, ?_, ?_, ?_⟩
  · rw [hreferences]
    exact (binds_of_foldlM hg).distinct
  · rw [hreferences]
    exact hlists.names
  · rw [hreferences, hparameters, List.length_map, List.length_map]
  · rw [hreferences, hparameters, zip_map_fst_snd]
    exact hlists.parameters
  · intro body' hbody' hstarts
    obtain rfl := Except.ok.inj (hbody.symm.trans hbody')
    have hkept : (withoutRepeats p).references.foldlM (gather body source) {} = .ok g :=
      foldlM_withoutRepeats (ofFields?_of_body hbody) (hstarts.separate _) (List.forall_mem_nil _)
        (fun _ hother => hother) (placed_empty body) binds_nil hg
    have hall := extract_eq_map (p := withoutRepeats p) hbody hsource
    rw [hkept] at hall
    rw [extract_eq_map hbody hsource, hg] at hextract
    exact hall.trans hextract

/-- A view and a plain name twice, two references without a name, and a mutable: two of the seven references
repeat an earlier one. -/
theorem references_are_first_mentions_mixed :
    let node (type : String) (start stop : Nat) (others : List (String × Json)) : Json :=
      .object (("type", .string type) :: ("start", .ofNat start) :: ("end", .ofNat stop) :: others)
    let named (name : String) : Json := node "Identifier" 0 0 [("name", .string name)]
    let view := node "ViewExpression" 0 8 [("id", named "x")]
    let counter := node "MutableExpression" 11 20 [("id", named "x")]
    let body : Node := {
      typeName := "BinaryExpression"
      fields := [("type", .string "BinaryExpression"), ("start", .ofNat 0), ("end", .ofNat 24),
        ("left", view), ("middle", counter), ("right", named "a")] }
    let p : ParsedCell := {
      input := "viewof x + mutable x + a"
      cell := {
        id := none
        body := .object body.fields
        references := [view, named "a", node "Super" 0 0 [], view, counter, named "a", node "Super" 0 0 []]
        isAsync := false
        isGenerator := false } }
    ∃ e, extract p = .ok e ∧ extract (withoutRepeats p) = .ok e ∧ (withoutRepeats p).references.length = 5 ∧
      e.references = ["viewof x", "a", "$1", "mutable x", "$3"] ∧
      e.references = (mentions p.references).eraseDups ∧ e.parameters = ["$0", "a", "$1", "$2", "$3"] := by
  intro node named view counter body p
  have hdata : (extract p).toOption.map (fun e => (e.references, e.parameters)) =
      some (["viewof x", "a", "$1", "mutable x", "$3"], ["$0", "a", "$1", "$2", "$3"]) := by decide +kernel
  have hlength : (withoutRepeats p).references.length = 5 := by decide +kernel
  have hstarts : ((body.walk.filter (Decorated ·)).map (·.span.start)).Nodup := by decide +kernel
  rcases he : extract p with error | e
  · rw [he] at hdata
    cases hdata
  rw [he] at hdata
  obtain ⟨hreferences, hparameters⟩ := Prod.mk.inj (Option.some.inj hdata)
  obtain ⟨-, hmentions, -, -, hsame⟩ := references_are_first_mentions p e he
  exact ⟨e, rfl, hsame body rfl (startsApart_of_nodup rfl hstarts), hlength, hreferences, hmentions,
    hparameters⟩

end CellGraph.Extraction
