import CellGraph.Extraction.Patch
import CellGraph.Proofs.Text

/-!
# Applying patches

Patches name ranges of the old text, and `applyAll?` looks for them in a text that has changed already.
The invariant that makes this work is `Follows`: what lies behind the part covered so far is still a
piece of the old text, and the shift is how much longer the part before it has become. So a patch that
fits the old text is found in the new one at its moved offsets, and the patches can always be applied,
in whatever order they come and whether they overlap or not (`exists_applyAll?`).

What comes out is said without offsets into a changing text. `selected` are the patches that are not
passed over, and `Splices` cuts the old text into their ranges and what lies between: the ranges are
replaced, the rest is kept (`exists_applyAll?_splices`).
-/

namespace CellGraph.Extraction.Patch

open Text

/-- A patch that is found after an insertion is the inserted one or was there before. -/
theorem mem_insert {p q : Patch} {patches : List Patch} (h : q ∈ insert p patches) :
    q = p ∨ q ∈ patches := by
  induction patches with
  | nil => exact Or.inl (List.mem_singleton.mp h)
  | cons first rest ih =>
      rw [insert] at h
      split at h
      · exact List.mem_cons.mp h
      · split at h
        · rcases List.mem_cons.mp h with rfl | hrest
          · exact Or.inl rfl
          · exact Or.inr (List.mem_cons_of_mem _ hrest)
        · rcases List.mem_cons.mp h with rfl | hrest
          · exact Or.inr List.mem_cons_self
          · exact (ih hrest).imp_right (List.mem_cons_of_mem _)

theorem mem_insert_self (p : Patch) (patches : List Patch) : p ∈ insert p patches := by
  induction patches with
  | nil => exact List.mem_singleton_self p
  | cons first rest ih =>
      rw [insert]
      split_ifs
      · exact List.mem_cons_self
      · exact List.mem_cons_self
      · exact List.mem_cons_of_mem _ ih

/-- Only a patch with the same start gives way to an inserted one. -/
theorem mem_insert_of_ne {p q : Patch} {patches : List Patch} (h : q ∈ patches)
    (hne : p.start ≠ q.start) : q ∈ insert p patches := by
  induction patches with
  | nil => cases h
  | cons first rest ih =>
      rw [insert]
      split_ifs with hlt heq
      · exact List.mem_cons_of_mem _ h
      · rcases List.mem_cons.mp h with rfl | hrest
        · exact absurd heq hne
        · exact List.mem_cons_of_mem _ hrest
      · rcases List.mem_cons.mp h with rfl | hrest
        · exact List.mem_cons_self
        · exact List.mem_cons_of_mem _ (ih hrest)

/-- The patches stand in the order of their starts, one for each start. -/
def Ordered (patches : List Patch) : Prop :=
  patches.Pairwise (·.start < ·.start)

theorem Ordered.insert {patches : List Patch} (h : Ordered patches) (p : Patch) :
    Ordered (insert p patches) := by
  induction patches with
  | nil => exact List.pairwise_singleton _ p
  | cons first rest ih =>
      obtain ⟨hfirst, hrest⟩ := List.pairwise_cons.mp h
      rw [Patch.insert]
      split_ifs with hlt heq
      · refine List.pairwise_cons.mpr ⟨fun q hq => ?_, h⟩
        rcases List.mem_cons.mp hq with rfl | hq
        · exact hlt
        · exact Nat.lt_trans hlt (hfirst q hq)
      · exact List.pairwise_cons.mpr ⟨fun q hq => heq ▸ hfirst q hq, hrest⟩
      · refine List.pairwise_cons.mpr ⟨fun q hq => ?_, ih hrest⟩
        rcases mem_insert hq with rfl | hq
        · omega
        · exact hfirst q hq

/-- Inserting a patch again changes nothing. -/
theorem Ordered.insert_of_mem {p : Patch} {patches : List Patch} (h : Ordered patches)
    (hmem : p ∈ patches) : Patch.insert p patches = patches := by
  induction patches with
  | nil => cases hmem
  | cons first rest ih =>
      obtain ⟨hfirst, hrest⟩ := List.pairwise_cons.mp h
      rw [Patch.insert]
      rcases List.mem_cons.mp hmem with rfl | hlater
      · rw [if_neg (Nat.lt_irrefl _), if_pos rfl]
      · have hlt := hfirst p hlater
        rw [if_neg (by omega), if_neg (by omega), ih hrest hlater]

/-- Inserts patches one after the other. -/
def insertAll (added patches : List Patch) : List Patch :=
  added.foldl (fun patches p => insert p patches) patches

theorem mem_insertAll {q : Patch} {added patches : List Patch} (h : q ∈ insertAll added patches) :
    q ∈ added ∨ q ∈ patches := by
  induction added generalizing patches with
  | nil => exact .inr h
  | cons p added ih =>
      rcases ih h with hadded | hbefore
      · exact .inl (List.mem_cons_of_mem _ hadded)
      · rcases mem_insert hbefore with rfl | hold
        · exact .inl List.mem_cons_self
        · exact .inr hold

/-- A patch stays, or gets in and stays, if every patch added at its start is that same patch. -/
theorem mem_insertAll_of_agree {q : Patch} {added patches : List Patch} (h : q ∈ added ∨ q ∈ patches)
    (hagree : ∀ p ∈ added, p.start = q.start → p = q) : q ∈ insertAll added patches := by
  induction added generalizing patches with
  | nil => exact h.resolve_left List.not_mem_nil
  | cons p added ih =>
      rw [List.forall_mem_cons] at hagree
      refine ih ?_ hagree.2
      rw [List.mem_cons, or_assoc] at h
      by_cases hstart : p.start = q.start
      · exact .inr (hagree.1 hstart ▸ mem_insert_self p patches)
      · rcases h with rfl | hadded | hbefore
        · exact absurd rfl hstart
        · exact .inl hadded
        · exact .inr (mem_insert_of_ne hbefore hstart)

theorem Ordered.insertAll {patches : List Patch} (h : Ordered patches) (added : List Patch) :
    Ordered (insertAll added patches) := by
  induction added generalizing patches with
  | nil => exact h
  | cons p added ih => exact ih (h.insert p)

theorem Ordered.insertAll_of_subset {added patches : List Patch} (h : Ordered patches)
    (hadded : ∀ p ∈ added, p ∈ patches) : Patch.insertAll added patches = patches := by
  induction added with
  | nil => rfl
  | cons p added ih =>
      rw [List.forall_mem_cons] at hadded
      rw [Patch.insertAll, List.foldl_cons, h.insert_of_mem hadded.1]
      exact ih hadded.2

/-! ## One range -/

/-- A range given by the parts around it is replaced. -/
theorem replaceRange?_append (front middle back replacement : List Char) :
    replaceRange? (front ++ middle ++ back) (byteLength front) (byteLength (front ++ middle))
      replacement = some (front ++ replacement ++ back) := by
  have hle : byteLength front ≤ byteLength (front ++ middle) := by
    rw [byteLength_append]
    exact Nat.le_add_right _ _
  rw [replaceRange?, guard, if_pos hle, cut?_append]
  show (cut? (byteLength front) (front ++ middle)).bind
    (fun cut => some (cut.1 ++ replacement ++ back)) = _
  rw [cut?_append]
  rfl

/-- A replacement keeps what is in front of the range and what is behind it. -/
theorem eq_append_of_replaceRange? {s t replacement : List Char} {start stop : Nat}
    (h : replaceRange? s start stop replacement = some t) :
    ∃ front middle back, s = front ++ middle ++ back ∧ t = front ++ replacement ++ back := by
  simp only [replaceRange?, Option.bind_eq_bind, Option.bind_eq_some_iff] at h
  obtain ⟨-, -, ⟨upto, back⟩, hstop, ⟨front, middle⟩, hstart, heq⟩ := h
  obtain ⟨rfl, -⟩ := eq_append_of_cut? hstop
  obtain ⟨rfl, -⟩ := eq_append_of_cut? hstart
  exact ⟨front, middle, back, rfl, (Option.some.inj heq).symm⟩

/-- A replacement does not bring a blank to the front. -/
theorem solid_of_replaceRange? {s t replacement : List Char} {start stop : Nat} (hs : Solid s)
    (hreplacement : Solid replacement) (h : replaceRange? s start stop replacement = some t) :
    Solid t := by
  obtain ⟨front, middle, back, rfl, rfl⟩ := eq_append_of_replaceRange? h
  rcases front with _ | ⟨c, front⟩
  · exact hreplacement.append back
  · -- the first character is the one that was there
    obtain ⟨d, rest, heq, hd⟩ := hs
    obtain ⟨rfl, -⟩ := List.cons.inj heq
    exact ⟨c, front ++ replacement ++ back, rfl, hd⟩

/-! ## The text so far -/

/-- The text has the range of the patch. -/
def Fits (s : List Char) (p : Patch) : Prop :=
  (slice? s p.start p.stop).isSome

/-- The progress made on `s`: the covered part of it has been rewritten, the rest still follows as it
was, and the shift is the difference in length. -/
structure Follows (s : List Char) (p : Progress) (covered rewritten rest : List Char) : Prop where
  old : s = covered ++ rest
  new : p.text = rewritten ++ rest
  covered : byteLength covered = p.covered
  shift : (byteLength rewritten : Int) = p.covered + p.shift

/-- Nothing is covered at the start. -/
theorem follows_start (s : List Char) : Follows s { text := s, shift := 0, covered := 0 } [] [] s :=
  ⟨rfl, rfl, rfl, rfl⟩

/-- Of two front parts of one text the one with fewer bytes is a front part of the other. -/
theorem exists_gap {covered rest front back : List Char} (h : covered ++ rest = front ++ back)
    (hle : byteLength covered ≤ byteLength front) :
    ∃ gap, front = covered ++ gap ∧ rest = gap ++ back := by
  rcases List.append_eq_append_iff.mp h with ⟨gap, hfront, hrest⟩ | ⟨gap, hcovered, hback⟩
  · exact ⟨gap, hfront, hrest⟩
  · -- `covered` has no byte more than `front`, so it has no character more
    rcases gap with _ | ⟨c, gap⟩
    · exact ⟨[], by rw [hcovered, List.append_nil, List.append_nil], hback.symm⟩
    · have hpos : 0 < c.utf8Size := c.utf8Size_pos
      rw [hcovered, byteLength_append, byteLength] at hle
      omega

/-- Offsets behind what is covered move with what follows the rewritten part. -/
theorem Follows.moved {s covered rewritten rest : List Char} {p : Progress}
    (h : Follows s p covered rewritten rest) (n : Nat) :
    p.moved (p.covered + n) = byteLength rewritten + n := by
  have hshift := h.shift
  rw [Progress.moved]
  omega

/-- A range of the old text behind what is covered divides the rest: into what lies before it, the range
itself, and what lies behind. -/
theorem Follows.exists_range {s covered rewritten rest : List Char} {p : Progress} {patch : Patch}
    (h : Follows s p covered rewritten rest) (hfits : Fits s patch) (hstart : p.covered ≤ patch.start) :
    ∃ gap old back, rest = gap ++ (old ++ back) ∧ patch.start = p.covered + byteLength gap ∧
      patch.stop = p.covered + (byteLength gap + byteLength old) ∧
      slice? s patch.start patch.stop = some old := by
  obtain ⟨old, hold⟩ := Option.isSome_iff_exists.mp hfits
  obtain ⟨front, back, heq, hfront, hstop⟩ := slice?_eq_some_iff.mp hold
  rw [h.old, List.append_assoc] at heq
  obtain ⟨gap, rfl, hrest⟩ := exists_gap heq (by rw [h.covered, hfront]; exact hstart)
  rw [byteLength_append, h.covered] at hfront
  rw [byteLength_append, byteLength_append, h.covered] at hstop
  exact ⟨gap, old, back, hrest, hfront.symm, by omega, hold⟩

/-- A patch that fits the old text behind what is covered is applied. -/
theorem Follows.step {s covered rewritten rest : List Char} {p : Progress} {patch : Patch}
    (h : Follows s p covered rewritten rest) (hfits : Fits s patch) (hstart : p.covered ≤ patch.start) :
    ∃ gap old back p', rest = gap ++ (old ++ back) ∧ patch.start = p.covered + byteLength gap ∧
      patch.stop = patch.start + byteLength old ∧ step? p patch = some p' ∧ p'.covered = patch.stop ∧
      Follows s p' (covered ++ (gap ++ old)) (rewritten ++ (gap ++ patch.text)) back := by
  obtain ⟨gap, old, back, hrest, hgap, hold, -⟩ := h.exists_range hfits hstart
  have hcovered := h.covered
  have hshift := h.shift
  -- the old range stands behind `rewritten ++ gap`, and its offsets are moved there
  have hmovedStart : p.moved patch.start = byteLength (rewritten ++ gap) := by
    rw [hgap, h.moved, byteLength_append]
  have hmovedStop : p.moved patch.stop = byteLength (rewritten ++ gap ++ old) := by
    rw [hold, h.moved, byteLength_append, byteLength_append, Nat.add_assoc]
  have hparts : p.text = rewritten ++ gap ++ old ++ back := by
    rw [h.new, hrest]
    simp only [List.append_assoc]
  have hstep : step? p patch = some {
      text := rewritten ++ gap ++ patch.text ++ back
      shift := p.shift + (byteLength patch.text - ((patch.stop : Int) - patch.start))
      covered := patch.stop } := by
    rw [step?, if_neg (by omega), hmovedStart, hmovedStop, hparts, replaceRange?_append]
    rfl
  refine ⟨gap, old, back, _, hrest, hgap, by omega, hstep, rfl, ?_, ?_, ?_, ?_⟩
  · rw [h.old, hrest]
    simp only [List.append_assoc]
  · simp only [List.append_assoc]
  · simp only [byteLength_append]
    omega
  · simp only [byteLength_append]
    omega

/-! ## All patches -/

/-- The patches that are applied: those that do not start before the end of the last one applied. -/
def selected (covered : Nat) : List Patch → List Patch
  | [] => []
  | patch :: patches =>
    if patch.start < covered then selected covered patches
    else patch :: selected patch.stop patches

/-- The end of the last of some patches, or the offset given if there are none. -/
def lastStop (covered : Nat) : List Patch → Nat
  | [] => covered
  | patch :: patches => lastStop patch.stop patches

/-- The second text is the first, which begins at the given offset, with the ranges of the patches
replaced. What lies before, between and behind the ranges is kept. -/
inductive Splices : Nat → List Patch → List Char → List Char → Prop
  | keep (offset : Nat) (s : List Char) : Splices offset [] s s
  | replace {offset : Nat} {patch : Patch} {patches : List Patch} {gap old rest rest' : List Char}
      (start : patch.start = offset + byteLength gap) (stop : patch.stop = patch.start + byteLength old)
      (next : Splices patch.stop patches rest rest') :
      Splices offset (patch :: patches) (gap ++ (old ++ rest)) (gap ++ (patch.text ++ rest'))

/-- Patches of which each lies behind the one before are all applied. -/
theorem selected_eq_self {patches : List Patch} {covered : Nat}
    (hcovered : ∀ patch ∈ patches, covered ≤ patch.start)
    (h : patches.Pairwise fun p q => p.stop ≤ q.start) : selected covered patches = patches := by
  induction patches generalizing covered with
  | nil => rfl
  | cons patch patches ih =>
      obtain ⟨hpatch, hpatches⟩ := List.pairwise_cons.mp h
      have hstart := hcovered patch List.mem_cons_self
      rw [selected, if_neg (by omega), ih hpatch hpatches]

/-- Patches that fit the old text are applied or passed over, and what follows the covered part is
spliced. -/
theorem Follows.foldlM {s covered rewritten rest : List Char} {patches : List Patch} {p : Progress}
    (h : Follows s p covered rewritten rest) (hfits : ∀ patch ∈ patches, Fits s patch) :
    ∃ p' covered' change back, patches.foldlM step? p = some p' ∧
      Follows s p' covered' (rewritten ++ change) back ∧
      p'.covered = lastStop p.covered (selected p.covered patches) ∧
      Splices p.covered (selected p.covered patches) rest (change ++ back) := by
  induction patches generalizing p covered rewritten rest with
  | nil => exact ⟨p, covered, [], rest, rfl, by rwa [List.append_nil], rfl, .keep _ _⟩
  | cons patch patches ih =>
      rw [List.forall_mem_cons] at hfits
      rw [List.foldlM_cons]
      by_cases hstart : patch.start < p.covered
      · obtain ⟨p', covered', change, back, hrun, hnext⟩ := ih h hfits.2
        refine ⟨p', covered', change, back, ?_, ?_⟩
        · rw [step?, if_pos hstart]
          exact hrun
        · rwa [selected, if_pos hstart]
      · obtain ⟨gap, old, rest', next, rfl, hgap, hold, hstep, hcovered, hnext⟩ :=
          h.step hfits.1 (Nat.le_of_not_lt hstart)
        obtain ⟨p', covered', change, back, hrun, hlast, hstop, hsplices⟩ := ih hnext hfits.2
        rw [hcovered] at hstop hsplices
        refine ⟨p', covered', gap ++ (patch.text ++ change), back, ?_, ?_, ?_, ?_⟩
        · rw [hstep]
          exact hrun
        · simpa only [List.append_assoc] using hlast
        · rw [selected, if_neg hstart]
          exact hstop
        · rw [selected, if_neg hstart, List.append_assoc, List.append_assoc]
          exact .replace hgap hold hsplices

/-- Patches that fit a text can be applied to it, and splice it. -/
theorem exists_applyAll?_splices {s : List Char} {patches : List Patch}
    (hfits : ∀ patch ∈ patches, Fits s patch) :
    ∃ t, applyAll? s patches = some t ∧ Splices 0 (selected 0 patches) s t := by
  obtain ⟨p, _, change, back, hp, hlast, -, hsplices⟩ := (follows_start s).foldlM hfits
  refine ⟨change ++ back, ?_, hsplices⟩
  rw [applyAll?, hp]
  exact congrArg some hlast.new

theorem exists_applyAll? {s : List Char} {patches : List Patch}
    (hfits : ∀ patch ∈ patches, Fits s patch) : ∃ t, applyAll? s patches = some t :=
  (exists_applyAll?_splices hfits).imp fun _ h => h.1

/-! ## The front of the text -/

/-- Applying a patch whose text begins with no blank keeps a blank from the front. -/
theorem solid_of_step? {p p' : Progress} {patch : Patch} (hp : Solid p.text)
    (hpatch : Solid patch.text) (h : step? p patch = some p') : Solid p'.text := by
  rw [step?] at h
  split at h
  · obtain rfl := Option.some.inj h
    exact hp
  · simp only [Option.bind_eq_bind, Option.bind_eq_some_iff] at h
    obtain ⟨text, htext, heq⟩ := h
    obtain rfl := Option.some.inj heq
    exact solid_of_replaceRange? hp hpatch htext

/-- So does a run over any number of them. -/
theorem solid_of_foldlM {patches : List Patch} {p p' : Progress} (hp : Solid p.text)
    (hpatches : ∀ patch ∈ patches, Solid patch.text) (h : patches.foldlM step? p = some p') :
    Solid p'.text := by
  induction patches generalizing p with
  | nil =>
      obtain rfl := Option.some.inj h
      exact hp
  | cons patch patches ih =>
      rw [List.forall_mem_cons] at hpatches
      rw [List.foldlM_cons, Option.bind_eq_bind, Option.bind_eq_some_iff] at h
      obtain ⟨next, hnext, hrest⟩ := h
      exact ih (solid_of_step? hp hpatches.1 hnext) hpatches.2 hrest

/-- A text that begins with no blank still does when such patches have been applied. -/
theorem solid_of_applyAll? {s t : List Char} {patches : List Patch} (hs : Solid s)
    (hpatches : ∀ patch ∈ patches, Solid patch.text) (h : applyAll? s patches = some t) :
    Solid t := by
  rw [applyAll?, Option.bind_eq_bind, Option.bind_eq_some_iff] at h
  obtain ⟨p, hp, heq⟩ := h
  obtain rfl := Option.some.inj heq
  exact solid_of_foldlM hs hpatches hp

end CellGraph.Extraction.Patch
