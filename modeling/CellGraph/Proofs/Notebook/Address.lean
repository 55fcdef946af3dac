import CellGraph.Notebook.Address
import CellGraph.Proofs.Text

/-!
# Spellings of a hosted notebook

A hosted notebook has an id, and its address is written in several ways: the id alone, the page, the module
on either host, each with a query or a fragment behind it. `Hosted` says which texts are ids. Expanding cuts
off what stands behind the id and in front of it, and what is left of any spelling is the id (`bare_append`,
`idPart_of_hosted` and the lemmas after it).

The address of a module is itself a spelling of its id as long as the version stays on one line. With a
version of several lines what is left has a line break, which no id has, and the address stays as it is. So
expanding twice is expanding once.
-/

namespace CellGraph

open Text

namespace Address

/-! ## Ids -/

/-- `@`, an owner, a slash and a slug, without blanks. Owner and slug may have slashes of their own. -/
def OwnerSlug (id : List Char) : Prop :=
  ∃ owner slug, id = '@' :: (owner ++ '/' :: slug) ∧ owner ≠ [] ∧ slug ≠ [] ∧
    ∀ c ∈ owner ++ slug, isBlank c = false

/-- A digit or letter of ASCII, or one of the two other characters that are letters of ASCII without regard
to case: the long s and the Kelvin sign. -/
def IsAlphanumeric (c : Char) : Prop :=
  c.isAlphanum = true ∨ c = 'ſ' ∨ c = 'K'

/-- `d`, a slash, and letters and digits. -/
def DocumentId (id : List Char) : Prop :=
  ∃ first rest, id = first :: '/' :: rest ∧ (first = 'd' ∨ first = 'D') ∧ rest ≠ [] ∧
    ∀ c ∈ rest, IsAlphanumeric c

/-- The id of a hosted notebook. -/
structure Hosted (id : List Char) : Prop where
  fragment : '#' ∉ id
  query : '?' ∉ id
  id : OwnerSlug id ∨ DocumentId id

theorem isOwnerSlug_iff {s : List Char} : isOwnerSlug s = true ↔ OwnerSlug s := by
  constructor
  · intro h
    unfold isOwnerSlug at h
    split at h
    · rename_i rest
      simp only [Bool.and_eq_true, List.all_eq_true, Bool.not_eq_true', List.contains_iff_mem] at h
      obtain ⟨hblank, hslash⟩ := h
      rcases rest with _ | ⟨c, rest⟩
      · cases hslash
      -- the slash is neither the first character of the rest nor the last
      rcases List.eq_nil_or_concat rest with rfl | ⟨middle, last, rfl⟩
      · cases hslash
      rw [List.drop_one, List.tail_cons, List.concat_eq_append, List.dropLast_concat] at hslash
      obtain ⟨front, back, rfl⟩ := List.append_of_mem hslash
      refine ⟨c :: front, back ++ [last], by simp, by simp, by simp, fun d hd => hblank d ?_⟩
      simp only [List.mem_append, List.mem_cons, List.concat_eq_append] at hd ⊢
      tauto
    · cases h
  · rintro ⟨owner, slug, rfl, howner, hslug, hblank⟩
    obtain ⟨c, owner, rfl⟩ := List.exists_cons_of_ne_nil howner
    have hall : ∀ d ∈ c :: owner ++ '/' :: slug, isBlank d = false := by
      intro d hd
      rcases List.mem_append.mp hd with hd | hd
      · exact hblank d (List.mem_append_left _ hd)
      · rcases List.mem_cons.mp hd with rfl | hd
        · decide
        · exact hblank d (List.mem_append_right _ hd)
    have hslash : '/' ∈ ((c :: owner ++ '/' :: slug).drop 1).dropLast := by
      rw [List.cons_append, List.drop_one, List.tail_cons, List.dropLast_append_of_ne_nil (by simp),
        List.dropLast_cons_of_ne_nil hslug]
      simp
    simp only [isOwnerSlug, Bool.and_eq_true, List.all_eq_true, Bool.not_eq_true', List.contains_iff_mem]
    exact ⟨hall, hslash⟩

/-! ## Letters without regard to case -/

theorem isLower_iff {c : Char} : c.isLower = true ↔ 0x61 ≤ c.toNat ∧ c.toNat ≤ 0x7A := by
  unfold Char.isLower
  rw [Bool.and_eq_true, decide_eq_true_eq, decide_eq_true_eq]
  exact Iff.rfl

theorem isUpper_iff {c : Char} : c.isUpper = true ↔ 0x41 ≤ c.toNat ∧ c.toNat ≤ 0x5A := by
  unfold Char.isUpper
  rw [decide_eq_true_eq]
  exact Iff.rfl

theorem isAlphanum_iff {c : Char} : c.isAlphanum = true ↔
    (0x41 ≤ c.toNat ∧ c.toNat ≤ 0x5A ∨ 0x61 ≤ c.toNat ∧ c.toNat ≤ 0x7A) ∨ 0x30 ≤ c.toNat ∧ c.toNat ≤ 0x39 := by
  unfold Char.isAlphanum Char.isAlpha
  rw [Bool.or_eq_true, Bool.or_eq_true, isUpper_iff, isLower_iff, Char.isDigit_iff_toNat]
  exact Iff.rfl

theorem toNat_foldCase (c : Char) : (foldCase c).toNat =
    if c.toNat = 0x17F then 0x73 else if c.toNat = 0x212A then 0x6B
    else if 0x41 ≤ c.toNat ∧ c.toNat ≤ 0x5A then c.toNat + 0x20 else c.toNat := by
  unfold foldCase Char.toLower
  split_ifs with hs hk hupper hcase hcase
  · rfl
  · rfl
  · have hle : c.val.toNat ≤ 0x5A := hupper.2
    show (c.val + 0x20).toNat = c.val.toNat + 0x20
    rw [UInt32.toNat_add]
    exact Nat.mod_eq_of_lt (by simp; omega)
  · exact absurd hupper hcase
  · exact absurd hcase hupper
  · rfl

theorem foldCase_eq_d_iff {c : Char} : foldCase c = 'd' ↔ c = 'd' ∨ c = 'D' := by
  rw [← Char.toNat_inj, ← Char.toNat_inj, ← Char.toNat_inj, toNat_foldCase]
  simp only [Char.reduceToNat]
  split_ifs <;> omega

theorem foldCase_eq_slash_iff {c : Char} : foldCase c = '/' ↔ c = '/' := by
  rw [← Char.toNat_inj, ← Char.toNat_inj, toNat_foldCase]
  simp only [Char.reduceToNat]
  split_ifs <;> omega

theorem isAlphanumeric_iff {c : Char} :
    ((foldCase c).isLower || c.isDigit) = true ↔ IsAlphanumeric c := by
  rw [IsAlphanumeric, Bool.or_eq_true, isLower_iff, isAlphanum_iff, toNat_foldCase, Char.isDigit_iff_toNat,
    ← Char.toNat_inj, ← Char.toNat_inj]
  simp only [Char.reduceToNat]
  split_ifs <;> omega

/-- A front part is dropped in whatever case it was written. -/
theorem dropFrontFolding?_eq_some_iff {front s rest : List Char} :
    dropFrontFolding? front s = some rest ↔ ∃ written, s = written ++ rest ∧ written.map foldCase = front := by
  induction front generalizing s with
  | nil =>
      rw [dropFrontFolding?, Option.some.injEq]
      constructor
      · rintro rfl
        exact ⟨[], rfl, rfl⟩
      · rintro ⟨written, rfl, hwritten⟩
        rw [List.map_eq_nil_iff.mp hwritten, List.nil_append]
  | cons c front ih =>
      cases s with
      | nil =>
          rw [dropFrontFolding?]
          refine ⟨fun h => (by cases h), ?_⟩
          rintro ⟨written, hwritten, hfront⟩
          rw [List.eq_nil_of_append_eq_nil hwritten.symm |>.1] at hfront
          cases hfront
      | cons d s =>
          rw [dropFrontFolding?]
          constructor
          · intro h
            split at h
            · rename_i hd
              obtain ⟨written, rfl, rfl⟩ := ih.mp h
              exact ⟨d :: written, rfl, by rw [List.map_cons, ← hd]⟩
            · cases h
          · rintro ⟨written, hwritten, hfront⟩
            cases written with
            | nil => cases hfront
            | cons e written =>
                obtain ⟨rfl, rfl⟩ := List.cons.inj hwritten
                obtain ⟨rfl, rfl⟩ := List.cons.inj hfront
                rw [if_pos rfl]
                exact ih.mpr ⟨written, rfl, rfl⟩

theorem isDocumentId_iff {s : List Char} : isDocumentId s = true ↔ DocumentId s := by
  have hrest : ∀ rest : List Char, (decide (rest ≠ []) && rest.all fun c => (foldCase c).isLower || c.isDigit) =
      true ↔ rest ≠ [] ∧ ∀ c ∈ rest, IsAlphanumeric c := by
    intro rest
    rw [Bool.and_eq_true, decide_eq_true_eq, List.all_eq_true]
    exact and_congr_right fun _ => forall₂_congr fun c _ => isAlphanumeric_iff
  constructor
  · intro h
    rw [isDocumentId] at h
    split at h
    · rename_i rest hdrop
      obtain ⟨written, rfl, hwritten⟩ := dropFrontFolding?_eq_some_iff.mp hdrop
      obtain ⟨first, _, rfl, hfirst, hwritten⟩ := List.map_eq_cons_iff.mp hwritten
      obtain ⟨slash, _, rfl, hslash, hwritten⟩ := List.map_eq_cons_iff.mp hwritten
      obtain rfl := List.map_eq_nil_iff.mp hwritten
      obtain rfl := foldCase_eq_slash_iff.mp hslash
      exact ⟨first, rest, rfl, foldCase_eq_d_iff.mp hfirst, (hrest rest).mp h⟩
    · cases h
  · rintro ⟨first, rest, rfl, hfirst, hid⟩
    have hdrop : dropFrontFolding? ['d', '/'] (first :: '/' :: rest) = some rest := by
      refine dropFrontFolding?_eq_some_iff.mpr ⟨[first, '/'], rfl, ?_⟩
      rw [List.map_cons, foldCase_eq_d_iff.mpr hfirst]
      rfl
    rw [isDocumentId, hdrop]
    exact (hrest rest).mpr hid

theorem isHostedId_iff {s : List Char} : isHostedId s = true ↔ OwnerSlug s ∨ DocumentId s := by
  rw [isHostedId, Bool.or_eq_true, isOwnerSlug_iff, isDocumentId_iff]

theorem not_isBlank_of_isAlphanumeric {c : Char} (h : IsAlphanumeric c) : isBlank c = false := by
  have hcode : 0x30 ≤ c.toNat ∧ c.toNat ≤ 0x7A ∨ c.toNat = 0x17F ∨ c.toNat = 0x212A := by
    rcases h with h | rfl | rfl
    · rw [isAlphanum_iff] at h
      omega
    · simp
    · simp
  simp only [isBlank, Bool.or_eq_false_iff, Bool.and_eq_false_iff, decide_eq_false_iff_not,
    beq_eq_false_iff_ne]
  omega

/-- No id has a blank. -/
theorem Hosted.not_isBlank {id : List Char} (h : Hosted id) : ∀ c ∈ id, isBlank c = false := by
  intro c hc
  rcases h.id with ⟨owner, slug, rfl, -, -, hblank⟩ | ⟨first, rest, rfl, hfirst, -, hrest⟩
  · simp only [List.mem_cons, List.mem_append] at hc hblank
    rcases hc with rfl | howner | rfl | hslug
    · decide
    · exact hblank c (.inl howner)
    · decide
    · exact hblank c (.inr hslug)
  · simp only [List.mem_cons] at hc
    rcases hc with rfl | rfl | hc
    · rcases hfirst with rfl | rfl <;> decide
    · decide
    · exact not_isBlank_of_isAlphanumeric (hrest c hc)

/-! ## Tails -/

section

variable {mark : Char}

theorem cutTails_append_of_not_mem {s : List Char} (h : mark ∉ s) (t : List Char) :
    cutTails mark false (s ++ t) = s ++ cutTails mark false t := by
  induction s with
  | nil => rfl
  | cons c s ih =>
      rw [List.mem_cons, not_or] at h
      rw [List.cons_append, cutTails, ih h.2]
      split_ifs with hline hcut
      · rfl
      · exact absurd (hcut.resolve_left (by simp)) (Ne.symm h.1)
      · rfl

/-- Of a tail on one line nothing is left. -/
theorem cutTails_skipping {s : List Char} (h : '\n' ∉ s) : cutTails mark true s = [] := by
  induction s with
  | nil => rfl
  | cons c s ih =>
      rw [List.mem_cons, not_or] at h
      rw [cutTails, if_neg (Ne.symm h.1), if_pos (.inl rfl), ih h.2]

theorem mem_of_mem_cutTails {skipping : Bool} {s : List Char} {c : Char} (h : c ∈ cutTails mark skipping s) :
    c ∈ s := by
  induction s generalizing skipping with
  | nil => exact h
  | cons d s ih =>
      rw [cutTails] at h
      split_ifs at h
      · rw [List.mem_cons] at h ⊢
        exact h.imp_right ih
      · exact List.mem_cons_of_mem _ (ih h)
      · rw [List.mem_cons] at h ⊢
        exact h.imp_right ih

theorem not_mem_cutTails (hmark : mark ≠ '\n') (skipping : Bool) (s : List Char) :
    mark ∉ cutTails mark skipping s := by
  induction s generalizing skipping with
  | nil => exact List.not_mem_nil
  | cons d s ih =>
      rw [cutTails]
      split_ifs with hline hcut
      · rw [List.mem_cons, not_or, hline]
        exact ⟨hmark, ih false⟩
      · exact ih true
      · rw [not_or] at hcut
        rw [List.mem_cons, not_or]
        exact ⟨Ne.symm hcut.2, ih false⟩

/-- Lines stay apart. -/
theorem newline_mem_cutTails {skipping : Bool} {s : List Char} (h : '\n' ∈ s) :
    '\n' ∈ cutTails mark skipping s := by
  induction s generalizing skipping with
  | nil => cases h
  | cons d s ih =>
      rw [cutTails]
      split_ifs with hline hcut
      · rw [hline]
        exact List.mem_cons_self
      · exact ih (List.mem_of_ne_of_mem (Ne.symm hline) h)
      · exact List.mem_cons_of_mem _ (ih (List.mem_of_ne_of_mem (Ne.symm hline) h))

end

/-- What can stand behind an address on its line: a query or a fragment, or nothing. -/
def IsTail (tail : List Char) : Prop :=
  tail = [] ∨ ∃ mark rest, tail = mark :: rest ∧ (mark = '?' ∨ mark = '#') ∧ '\n' ∉ rest

/-- Without its tail an address is what stands in front of the tail. -/
theorem bare_append {s tail : List Char} (hfragment : '#' ∉ s) (hquery : '?' ∉ s) (htail : IsTail tail) :
    bare (s ++ tail) = s := by
  rw [bare, cutTails_append_of_not_mem hfragment, cutTails_append_of_not_mem hquery]
  suffices hnothing : cutTails '?' false (cutTails '#' false tail) = [] by
    rw [hnothing, List.append_nil]
  rcases htail with rfl | ⟨mark, rest, rfl, rfl | rfl, hline⟩
  · rfl
  · -- the fragment is cut first, and may begin inside the query
    have hrest : '\n' ∉ cutTails '#' false rest := fun hmem => hline (mem_of_mem_cutTails hmem)
    rw [cutTails, if_neg (by decide), if_neg (by decide), cutTails, if_neg (by decide), if_pos (.inr rfl),
      cutTails_skipping hrest]
  · rw [cutTails, if_neg (by decide), if_pos (.inr rfl), cutTails_skipping hline]
    rfl

theorem not_mem_bare (s : List Char) : '#' ∉ bare s ∧ '?' ∉ bare s :=
  ⟨fun hmem => not_mem_cutTails (by decide) _ _ (mem_of_mem_cutTails hmem), not_mem_cutTails (by decide) _ _⟩

theorem newline_mem_bare {s : List Char} (h : '\n' ∈ s) : '\n' ∈ bare s :=
  newline_mem_cutTails (newline_mem_cutTails h)

/-! ## What stands around the id -/

/-- An ending is dropped once, in whatever case it was written. -/
theorem dropEndFolding_spec (ending s : List Char) :
    dropEndFolding ending s = s ∨
      ∃ written, s = dropEndFolding ending s ++ written ∧ written.map foldCase = ending := by
  rw [dropEndFolding]
  split
  · rename_i rest hrest
    obtain ⟨written, hs, hwritten⟩ := dropFrontFolding?_eq_some_iff.mp hrest
    refine .inr ⟨written.reverse, ?_, ?_⟩
    · rw [← List.reverse_append, ← hs, List.reverse_reverse]
    · rw [List.map_reverse, hwritten, List.reverse_reverse]
  · exact .inl rfl

theorem dropEndFolding_append {ending : List Char} (h : ending.map foldCase = ending) (s : List Char) :
    dropEndFolding ending (s ++ ending) = s := by
  have hdrop : dropFrontFolding? ending.reverse (s ++ ending).reverse = some s.reverse := by
    refine dropFrontFolding?_eq_some_iff.mpr ⟨ending.reverse, List.reverse_append, ?_⟩
    rw [List.map_reverse, h]
  rw [dropEndFolding, hdrop]
  exact List.reverse_reverse s

theorem newline_not_mem_of_map_foldCase {written expected : List Char} (h : written.map foldCase = expected)
    (hline : '\n' ∉ expected) : '\n' ∉ written :=
  fun hmem => hline (h ▸ List.mem_map.mpr ⟨'\n', hmem, rfl⟩)

/-- The id in an address is the address without something in front and something behind, neither of which
breaks the line. -/
theorem idPart_spec (s : List Char) :
    ∃ front back, s = front ++ (idPart s ++ back) ∧ '\n' ∉ front ∧ '\n' ∉ back := by
  have hend : ∀ rest : List Char,
      ∃ back, rest = dropEndFolding ['.', 'j', 's'] rest ++ back ∧ '\n' ∉ back := by
    intro rest
    rcases dropEndFolding_spec ['.', 'j', 's'] rest with hsame | ⟨written, hwritten, hfold⟩
    · exact ⟨[], by rw [hsame, List.append_nil], List.not_mem_nil⟩
    · exact ⟨written, hwritten, newline_not_mem_of_map_foldCase hfold (by decide)⟩
  have hboth : ∀ {front rest : List Char}, dropFrontFolding? front s = some rest → '\n' ∉ front →
      ∃ front back, s = front ++ (dropEndFolding ['.', 'j', 's'] rest ++ back) ∧ '\n' ∉ front ∧ '\n' ∉ back := by
    intro front rest hrest hfront
    obtain ⟨written, rfl, hfold⟩ := dropFrontFolding?_eq_some_iff.mp hrest
    obtain ⟨back, hback, hline⟩ := hend rest
    exact ⟨written, back, by rw [← hback], newline_not_mem_of_map_foldCase hfold hfront, hline⟩
  rw [idPart]
  split
  · rename_i rest hrest
    obtain ⟨written, rfl, hfold⟩ := dropFrontFolding?_eq_some_iff.mp hrest
    exact ⟨written, [], by rw [List.append_nil], newline_not_mem_of_map_foldCase hfold (by decide),
      List.not_mem_nil⟩
  · split
    · rename_i rest hrest
      exact hboth hrest (by decide)
    · split
      · rename_i rest hrest
        exact hboth hrest (by decide)
      · exact ⟨[], [], by rw [List.append_nil, List.nil_append], List.not_mem_nil, List.not_mem_nil⟩

theorem mem_of_mem_idPart {s : List Char} {c : Char} (h : c ∈ idPart s) : c ∈ s := by
  obtain ⟨front, back, hs, -, -⟩ := idPart_spec s
  rw [hs]
  exact List.mem_append_right _ (List.mem_append_left _ h)

theorem newline_mem_idPart {s : List Char} (h : '\n' ∈ s) : '\n' ∈ idPart s := by
  obtain ⟨front, back, hs, hfront, hback⟩ := idPart_spec s
  rw [hs, List.mem_append, List.mem_append] at h
  exact (h.resolve_left hfront).resolve_right hback

/-- An id does not look like the address of a page or of a module. -/
theorem idPart_of_hosted {id : List Char} (h : Hosted id) : idPart id = id := by
  obtain ⟨first, rest, rfl, hfirst⟩ : ∃ first rest, id = first :: rest ∧ 'h' ≠ foldCase first := by
    rcases h.id with ⟨owner, slug, rfl, -⟩ | ⟨first, rest, rfl, hfirst, -⟩
    · exact ⟨'@', _, rfl, by decide⟩
    · exact ⟨first, _, rfl, by rw [foldCase_eq_d_iff.mpr hfirst]; decide⟩
  have hnone : ∀ front : List Char, dropFrontFolding? ('h' :: front) (first :: rest) = none :=
    fun front => if_neg hfirst
  rw [idPart, show "https://observablehq.com/".toList = 'h' :: "ttps://observablehq.com/".toList from rfl,
    show "https://api.observablehq.com/".toList = 'h' :: "ttps://api.observablehq.com/".toList from rfl,
    show "https://beta.observablehq.com/".toList = 'h' :: "ttps://beta.observablehq.com/".toList from rfl,
    hnone, hnone, hnone]

theorem idPart_page (id : List Char) : idPart ("https://observablehq.com/".toList ++ id) = id := by
  rw [idPart, dropFrontFolding?_eq_some_iff.mpr ⟨_, rfl, by decide⟩]

theorem idPart_module (id : List Char) :
    idPart ("https://api.observablehq.com/".toList ++ (id ++ ['.', 'j', 's'])) = id := by
  have hpage : dropFrontFolding? "https://observablehq.com/".toList
      ("https://api.observablehq.com/".toList ++ (id ++ ['.', 'j', 's'])) = none := rfl
  rw [idPart, hpage, dropFrontFolding?_eq_some_iff.mpr ⟨_, rfl, by decide⟩]
  exact dropEndFolding_append (by decide) id

theorem idPart_beta (id : List Char) :
    idPart ("https://beta.observablehq.com/".toList ++ (id ++ ['.', 'j', 's'])) = id := by
  have hpage : dropFrontFolding? "https://observablehq.com/".toList
      ("https://beta.observablehq.com/".toList ++ (id ++ ['.', 'j', 's'])) = none := rfl
  have hmodule : dropFrontFolding? "https://api.observablehq.com/".toList
      ("https://beta.observablehq.com/".toList ++ (id ++ ['.', 'j', 's'])) = none := rfl
  rw [idPart, hpage, hmodule, dropFrontFolding?_eq_some_iff.mpr ⟨_, rfl, by decide⟩]
  exact dropEndFolding_append (by decide) id

end Address

open Address

/-! ## Expanding -/

namespace Host

variable {h : Host} {source id : String}

/-- A source in which a hosted id is found expands to the module of that id. -/
theorem expand_of_idPart (hid : Hosted id.toList) (hpart : idPart (bare source.toList) = id.toList) :
    h.expand source = h.moduleUrl id := by
  rw [expand, hpart, if_pos (isHostedId_iff.mpr hid.id), moduleUrl]

/-- What looks like an id once the tails are gone is one. -/
theorem hosted_idPart {s : List Char} (h : isHostedId (idPart (bare s)) = true) : Hosted (idPart (bare s)) where
  fragment hmem := (not_mem_bare s).1 (mem_of_mem_idPart hmem)
  query hmem := (not_mem_bare s).2 (mem_of_mem_idPart hmem)
  id := isHostedId_iff.mp h

/-- A source either stays as it is or expands to the module of a hosted id. -/
theorem expand_cases (h : Host) (source : String) :
    h.expand source = source ∨ ∃ id : String, Hosted id.toList ∧ h.expand source = h.moduleUrl id := by
  by_cases hfound : isHostedId (idPart (bare source.toList)) = true
  · have hid : Hosted (String.ofList (idPart (bare source.toList))).toList := by
      rw [String.toList_ofList]
      exact hosted_idPart hfound
    exact .inr ⟨_, hid, expand_of_idPart hid String.toList_ofList.symm⟩
  · exact .inl (if_neg hfound)

/-- A source of several lines does not name a notebook. -/
theorem expand_of_newline (hline : '\n' ∈ source.toList) : h.expand source = source := by
  refine if_neg fun hfound => ?_
  have hblank := (hosted_idPart hfound).not_isBlank '\n' (newline_mem_idPart (newline_mem_bare hline))
  exact absurd hblank (by decide)

/-- The ways to write the address of a notebook, its tail aside. -/
def spellings (id : String) : List String :=
  [id, "https://observablehq.com/" ++ id, "https://api.observablehq.com/" ++ id ++ ".js",
    "https://beta.observablehq.com/" ++ id ++ ".js"]

/-- Nothing, a query, a fragment, or both. -/
def tails (query fragment : String) : List String :=
  ["", "?" ++ query, "#" ++ fragment, "?" ++ query ++ "#" ++ fragment]

theorem isTail_of_mem_tails {query fragment : String} (hquery : '\n' ∉ query.toList)
    (hfragment : '\n' ∉ fragment.toList) : ∀ tail ∈ tails query fragment, IsTail tail.toList := by
  intro tail htail
  simp only [tails, List.mem_cons, List.not_mem_nil, or_false] at htail
  rcases htail with rfl | rfl | rfl | rfl
  · exact .inl rfl
  · exact .inr ⟨'?', query.toList, by rw [String.toList_append]; rfl, .inl rfl, hquery⟩
  · exact .inr ⟨'#', fragment.toList, by rw [String.toList_append]; rfl, .inr rfl, hfragment⟩
  · refine .inr ⟨'?', query.toList ++ '#' :: fragment.toList, ?_, .inl rfl, ?_⟩
    · rw [String.toList_append, String.toList_append, String.toList_append, List.append_assoc]
      rfl
    · exact List.not_mem_append hquery (List.not_mem_cons_of_ne_of_not_mem (by decide) hfragment)

theorem idPart_spelling (hid : Hosted id.toList) : ∀ spelling ∈ spellings id,
    '#' ∉ spelling.toList ∧ '?' ∉ spelling.toList ∧ idPart spelling.toList = id.toList := by
  have haround : ∀ {c : Char} {front back : List Char}, c ∉ front → c ∉ id.toList → c ∉ back →
      c ∉ front ++ (id.toList ++ back) :=
    fun hfront hc hback => List.not_mem_append hfront (List.not_mem_append hc hback)
  intro spelling hspelling
  simp only [spellings, List.mem_cons, List.not_mem_nil, or_false] at hspelling
  rcases hspelling with rfl | rfl | rfl | rfl
  · exact ⟨hid.fragment, hid.query, idPart_of_hosted hid⟩
  · rw [String.toList_append]
    exact ⟨List.not_mem_append (by decide) hid.fragment, List.not_mem_append (by decide) hid.query,
      idPart_page _⟩
  · rw [String.toList_append, String.toList_append, List.append_assoc]
    exact ⟨haround (by decide) hid.fragment (by decide), haround (by decide) hid.query (by decide),
      idPart_module _⟩
  · rw [String.toList_append, String.toList_append, List.append_assoc]
    exact ⟨haround (by decide) hid.fragment (by decide), haround (by decide) hid.query (by decide),
      idPart_beta _⟩

theorem expand_spelling (hid : Hosted id.toList) {spelling tail : String} (hspelling : spelling ∈ spellings id)
    (htail : IsTail tail.toList) : h.expand (spelling ++ tail) = h.moduleUrl id := by
  obtain ⟨hfragment, hquery, hpart⟩ := idPart_spelling hid spelling hspelling
  refine expand_of_idPart hid ?_
  rw [String.toList_append, bare_append hfragment hquery htail, hpart]

/-- With the usual origin the address of a module is a spelling of its id, with the version in the query. -/
theorem moduleUrl_eq (version id : String) :
    ({ version } : Host).moduleUrl id = "https://api.observablehq.com/" ++ id ++ ".js" ++ ("?v=" ++ version) := by
  have hbase : ({ version } : Host).base = "https://api.observablehq.com".toList := by
    change ("https://api.observablehq.com".toList.reverse.dropWhile (· == '/')).reverse = _
    decide
  have hslash : "https://api.observablehq.com/".toList = "https://api.observablehq.com".toList ++ ['/'] := by
    decide
  rw [← String.toList_inj, moduleUrl, moduleChars, hbase]
  simp only [String.toList_append, String.toList_ofList, hslash, List.append_assoc, List.cons_append,
    List.nil_append]
  rfl

/-- The address of a module expands to itself, whatever the version. -/
theorem expand_moduleUrl (version : String) (hid : Hosted id.toList) :
    ({ version } : Host).expand (({ version } : Host).moduleUrl id) = ({ version } : Host).moduleUrl id := by
  have hversion : ("?v=" ++ version).toList = '?' :: ("v=".toList ++ version.toList) := by
    rw [String.toList_append]
    rfl
  by_cases hline : '\n' ∈ version.toList
  · refine expand_of_newline ?_
    rw [moduleUrl_eq, String.toList_append, hversion]
    exact List.mem_append_right _ (List.mem_cons_of_mem _ (List.mem_append_right _ hline))
  · have htail : IsTail ("?v=" ++ version).toList :=
      .inr ⟨'?', _, hversion, .inl rfl, List.not_mem_append (by decide) hline⟩
    conv_lhs => rw [moduleUrl_eq]
    exact expand_spelling hid (by simp [spellings]) htail

/-- All spellings of a hosted notebook, with or without a query and a fragment behind them, expand to the
address of its module. Every source stays as it is or expands to the address of the module of a hosted
notebook, and expanding it again changes nothing. -/
theorem spellings_expand_alike (version : String) :
    let host : Host := { version }
    (∀ id query fragment : String, Hosted id.toList → '\n' ∉ query.toList → '\n' ∉ fragment.toList →
      ∀ spelling ∈ spellings id, ∀ tail ∈ tails query fragment,
        host.expand (spelling ++ tail) = host.moduleUrl id) ∧
    (∀ source, host.expand source = source ∨
      ∃ id : String, Hosted id.toList ∧ host.expand source = host.moduleUrl id) ∧
    ∀ source, host.expand (host.expand source) = host.expand source := by
  intro host
  refine ⟨?_, expand_cases host, fun source => ?_⟩
  · intro id query fragment hid hquery hfragment spelling hspelling tail htail
    exact expand_spelling hid hspelling (isTail_of_mem_tails hquery hfragment tail htail)
  · rcases expand_cases host source with hsame | ⟨id, hid, hmodule⟩
    · rw [hsame, hsame]
    · rw [hmodule]
      exact expand_moduleUrl version hid

/-- An id with a slash in its slug that ends like a module, a query and a fragment with the marks of the other,
and a version of two lines. -/
theorem spellings_expand_alike_odd_version :
    let host : Host := { version := "3\n#4" }
    let url := "https://api.observablehq.com/@a/b/c.js.js?v=3\n#4"
    Hosted "@a/b/c.js".toList ∧ Hosted "D/0\u017F".toList ∧
      (∀ spelling ∈ spellings "@a/b/c.js", ∀ tail ∈ tails "q#r" "f?", host.expand (spelling ++ tail) = url) ∧
      host.expand url = url := by
  intro host url
  have hblank : ((['a'] ++ "b/c.js".toList).all fun c => !isBlank c) = true := by decide
  have hslug : Hosted "@a/b/c.js".toList := by
    refine ⟨by decide, by decide, .inl ⟨['a'], "b/c.js".toList, rfl, by decide, by decide, fun c hc => ?_⟩⟩
    exact (Bool.not_eq_true' _).mp (List.all_eq_true.mp hblank c hc)
  have hdocument : Hosted "D/0\u017F".toList := by
    refine ⟨by decide, by decide, .inr ⟨'D', ['0', '\u017F'], by decide, .inr rfl, by decide, ?_⟩⟩
    rintro c (_ | ⟨_, _ | ⟨_, ⟨⟩⟩⟩)
    · exact .inl rfl
    · exact .inr (.inl rfl)
  have hurl : host.moduleUrl "@a/b/c.js" = url := by decide +kernel
  obtain ⟨halike, -, htwice⟩ := spellings_expand_alike "3\n#4"
  have hall := halike "@a/b/c.js" "q#r" "f?" hslug (by decide) (by decide)
  refine ⟨hslug, hdocument, fun spelling hspelling tail htail => (hall spelling hspelling tail htail).trans hurl, ?_⟩
  have hfirst := (hall "@a/b/c.js" List.mem_cons_self "" List.mem_cons_self).trans hurl
  have hagain := htwice ("@a/b/c.js" ++ "")
  rwa [hfirst] at hagain

end Host

end CellGraph
