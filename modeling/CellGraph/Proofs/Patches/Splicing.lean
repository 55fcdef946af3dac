import CellGraph.Proofs.Patches

/-!
# Patches in terms of the old text

`applyAll?` changes a text in place and moves the offsets of the old text as it goes along. What it does can
be said about the old text alone. It takes the patches greedily: one is passed over just if it starts before
the end of the last one taken (`mem_selected_iff`). And its result is put together from pieces, the gaps
between the ranges taken, cut out of the old text, and the texts that replace the ranges (`spliced?`).

On the way there is nothing to go wrong: at every moment the shift is the difference in length to the old
text, and the range of a patch that is not passed over is found, as it was, at its moved offsets
(`Located`).
-/

namespace CellGraph.Extraction.Patch

open Text

/-! ## The patches taken -/

theorem selected_sublist (covered : Nat) (patches : List Patch) :
    (selected covered patches).Sublist patches := by
  induction patches generalizing covered with
  | nil => exact List.Sublist.refl []
  | cons patch patches ih =>
      rw [selected]
      split
      · exact (ih covered).cons patch
      · exact (ih patch.stop).cons_cons patch

/-- Which of the later patches are taken depends on the earlier ones only by the end of the last one
taken. -/
theorem selected_append (covered : Nat) (before after : List Patch) :
    selected covered (before ++ after) =
      selected covered before ++ selected (lastStop covered (selected covered before)) after := by
  induction before generalizing covered with
  | nil => rfl
  | cons patch before ih =>
      rw [List.cons_append, selected, selected]
      split
      · exact ih covered
      · rw [ih patch.stop]
        rfl

/-- A patch is taken if it does not start before the end of the last one taken, and only then. -/
theorem mem_selected_iff {before after : List Patch} {patch : Patch}
    (h : Ordered (before ++ patch :: after)) :
    patch ∈ selected 0 (before ++ patch :: after) ↔ lastStop 0 (selected 0 before) ≤ patch.start := by
  obtain ⟨-, hlater, hbefore⟩ := List.pairwise_append.mp h
  -- the patch stands nowhere else
  have hnotBefore : patch ∉ selected 0 before := fun hmem =>
    Nat.lt_irrefl _ (hbefore patch ((selected_sublist 0 before).subset hmem) patch List.mem_cons_self)
  have hnotAfter : patch ∉ after := fun hmem =>
    Nat.lt_irrefl _ ((List.pairwise_cons.mp hlater).1 patch hmem)
  rw [selected_append, List.mem_append, or_iff_right hnotBefore, selected]
  split
  · next hlt =>
      have hnot : patch ∉ selected (lastStop 0 (selected 0 before)) after := fun hmem =>
        hnotAfter ((selected_sublist _ after).subset hmem)
      exact iff_of_false hnot (Nat.not_le.mpr hlt)
  · next hge => exact iff_of_true List.mem_cons_self (Nat.le_of_not_lt hge)

/-! ## The pieces -/

/-- The old text from an offset on with ranges of it replaced: the gaps before, between and behind the
ranges are cut out of the old text. -/
def spliced? (s : List Char) (offset : Nat) : List Patch → Option (List Char)
  | [] => slice? s offset (byteLength s)
  | patch :: patches => do
    let gap ← slice? s offset patch.start
    let rest ← spliced? s patch.stop patches
    return gap ++ patch.text ++ rest

/-- What splices the rest of a text is put together from its pieces. -/
theorem Splices.spliced? {s front rest rest' : List Char} {offset : Nat} {patches : List Patch}
    (h : Splices offset patches rest rest') (hs : s = front ++ rest)
    (hfront : byteLength front = offset) : spliced? s offset patches = some rest' := by
  induction h generalizing front with
  | keep offset rest =>
      rw [Patch.spliced?, slice?_eq_some_iff]
      exact ⟨front, [], by rw [hs, List.append_nil], hfront, by rw [hs]⟩
  | @replace offset patch patches gap old rest rest' hstart hstop hnext ih =>
      have hgap : slice? s offset patch.start = some gap := by
        refine slice?_eq_some_iff.mpr ⟨front, old ++ rest, ?_, hfront, ?_⟩
        · rw [hs, List.append_assoc]
        · rw [byteLength_append, hfront, hstart]
      have hrest : Patch.spliced? s patch.stop patches = some rest' := by
        refine @ih (front ++ (gap ++ old)) ?_ ?_
        · rw [hs]
          simp only [List.append_assoc]
        · rw [byteLength_append, byteLength_append]
          omega
      rw [Patch.spliced?, hgap, hrest]
      simp

/-! ## The ranges on the way -/

/-- The range of a patch is found in the text so far: moving its offsets does not cut them off at zero, they
lie in the text, and between them stands what stood in the range. -/
structure Located (s : List Char) (p : Progress) (patch : Patch) : Prop where
  start : (p.moved patch.start : Int) = patch.start + p.shift
  stop : (p.moved patch.stop : Int) = patch.stop + p.shift
  within : p.moved patch.stop ≤ byteLength p.text
  text : slice? p.text (p.moved patch.start) (p.moved patch.stop) = slice? s patch.start patch.stop

section

variable {s covered rewritten rest : List Char} {p : Progress}

theorem Follows.located {patch : Patch} (h : Follows s p covered rewritten rest) (hfits : Fits s patch)
    (hstart : p.covered ≤ patch.start) : Located s p patch := by
  obtain ⟨gap, old, back, hrest, hgap, hold, hslice⟩ := h.exists_range hfits hstart
  have hshift := h.shift
  have hmovedStart : p.moved patch.start = byteLength rewritten + byteLength gap := by
    rw [hgap, h.moved]
  have hmovedStop : p.moved patch.stop = byteLength rewritten + (byteLength gap + byteLength old) := by
    rw [hold, h.moved]
  refine ⟨by omega, by omega, ?_, ?_⟩
  · rw [h.new, hrest, hmovedStop]
    simp only [byteLength_append]
    omega
  · rw [hslice, slice?_eq_some_iff]
    refine ⟨rewritten ++ gap, back, ?_, ?_, ?_⟩
    · rw [h.new, hrest]
      simp only [List.append_assoc]
    · rw [hmovedStart, byteLength_append]
    · rw [hmovedStop, byteLength_append, byteLength_append, Nat.add_assoc]

/-- The shift is the difference in length between the text so far and the old one. -/
theorem Follows.shift_eq (h : Follows s p covered rewritten rest) :
    p.shift = (byteLength p.text : Int) - byteLength s := by
  have hshift := h.shift
  have hcovered := h.covered
  rw [h.new, h.old, byteLength_append, byteLength_append]
  omega

end

/-- Patches that fit a text, whether they overlap or are empty, can always be applied to it. The result is
made of the gaps of the old text and the texts of the patches taken; a patch is taken just if it does not
start before the end of the last one taken. At every moment the shift is the difference in length to the old
text, and the range of a patch that is to be taken is found at its moved offsets. -/
theorem splices_greedily {s : List Char} {patches : List Patch} (hordered : Ordered patches)
    (hfits : ∀ patch ∈ patches, Fits s patch) :
    (∃ t, applyAll? s patches = some t ∧ spliced? s 0 (selected 0 patches) = some t) ∧
    (selected 0 patches).Sublist patches ∧
    (∀ before patch after, patches = before ++ patch :: after →
      (patch ∈ selected 0 patches ↔ lastStop 0 (selected 0 before) ≤ patch.start)) ∧
    ∀ before after, patches = before ++ after →
      ∃ p, before.foldlM step? { text := s, shift := 0, covered := 0 } = some p ∧
        p.covered = lastStop 0 (selected 0 before) ∧
        p.shift = (byteLength p.text : Int) - byteLength s ∧
        ∀ patch ∈ after.head?, p.covered ≤ patch.start → Located s p patch := by
  refine ⟨?_, selected_sublist 0 patches, ?_, ?_⟩
  · obtain ⟨t, happly, hsplices⟩ := exists_applyAll?_splices hfits
    exact ⟨t, happly, hsplices.spliced? (List.nil_append s).symm rfl⟩
  · rintro before patch after rfl
    exact mem_selected_iff hordered
  · rintro before after rfl
    rw [List.forall_mem_append] at hfits
    obtain ⟨p, _, _, _, hrun, hfollows, hcovered, -⟩ := (follows_start s).foldlM hfits.1
    refine ⟨p, hrun, hcovered, hfollows.shift_eq, fun patch hpatch hstart => ?_⟩
    exact hfollows.located (hfits.2 patch (List.mem_of_mem_head? hpatch)) hstart

/-- Characters of two and three bytes, a patch that makes the text longer with one inside it that is passed
over, an empty range, and a patch that makes the text shorter with one overlapping it that is passed over. -/
theorem splices_greedily_overlapping :
    let s := "é x€ z".toList
    let long : Patch := ⟨0, 3, "long".toList⟩
    let empty : Patch := ⟨3, 3, ['+']⟩
    let gone : Patch := ⟨4, 8, []⟩
    let patches := [long, ⟨2, 4, ['?']⟩, empty, gone, ⟨7, 9, ['y']⟩]
    Ordered patches ∧ (∀ patch ∈ patches, Fits s patch) ∧
    selected 0 patches = [long, empty, gone] ∧
    applyAll? s patches = some "long+xz".toList ∧
    spliced? s 0 [long, empty, gone] = some "long+xz".toList ∧
    ∃ p, [long, ⟨2, 4, ['?']⟩, empty].foldlM step? { text := s, shift := 0, covered := 0 } = some p ∧
      p.shift = 2 ∧ Located s p gone := by
  intro s long empty gone patches
  have hordered : Ordered patches := by
    unfold Ordered
    decide
  have hfits : ∀ patch ∈ patches, Fits s patch := by
    unfold Fits
    decide
  have hselected : selected 0 patches = [long, empty, gone] := by decide
  obtain ⟨⟨t, happly, hspliced⟩, -, -, hmoments⟩ := splices_greedily hordered hfits
  have ht : applyAll? s patches = some "long+xz".toList := by decide
  obtain rfl := Option.some.inj (happly.symm.trans ht)
  obtain ⟨p, hrun, hcovered, hshift, hlocated⟩ :=
    hmoments [long, ⟨2, 4, ['?']⟩, empty] [gone, ⟨7, 9, ['y']⟩] rfl
  refine ⟨hordered, hfits, hselected, happly, hselected ▸ hspliced, p, hrun, ?_, ?_⟩
  · have htext : ([long, ⟨2, 4, ['?']⟩, empty].foldlM step?
        { text := s, shift := 0, covered := 0 }).map Progress.shift = some 2 := by decide
    rw [hrun] at htext
    exact Option.some.inj htext
  · refine hlocated gone rfl ?_
    rw [hcovered]
    decide

end CellGraph.Extraction.Patch
