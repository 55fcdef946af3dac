import CellGraph.Text.Blank
import CellGraph.Text.Bytes
import CellGraph.Text.Parts
import Mathlib.Data.List.Basic
import Mathlib.Data.Option.Basic

/-!
# Laws of texts

What the basic operations on texts do: trimming, taking the longest run of a class of characters, splitting
what was joined, and cutting at byte offsets. A cut at an offset is a way to write the text as two parts, the
first of that many bytes (`eq_append_of_cut?`, `cut?_append`); there is at most one such way, since no character
has zero bytes. A slice is a way to write it as three (`slice?_eq_some_iff`).
-/

namespace CellGraph.Text

/-! ## Blanks -/

/-- The text begins with a character that is no blank. -/
def Solid (s : List Char) : Prop :=
  ∃ c rest, s = c :: rest ∧ isBlank c = false

/-- Nothing is dropped from the front of such a text. -/
theorem Solid.dropWhile {s : List Char} (h : Solid s) : s.dropWhile isBlank = s := by
  obtain ⟨c, rest, rfl, hc⟩ := h
  rw [List.dropWhile_cons_of_neg (by simp [hc])]

theorem Solid.append {s : List Char} (h : Solid s) (t : List Char) : Solid (s ++ t) := by
  obtain ⟨c, rest, rfl, hc⟩ := h
  exact ⟨c, rest ++ t, rfl, hc⟩

/-- Spaces and tabs are blanks. -/
theorem isInlineBlank_eq_false {c : Char} (h : isBlank c = false) : isInlineBlank c = false := by
  by_contra hc
  rw [Bool.not_eq_false] at hc
  simp only [isInlineBlank, Bool.or_eq_true, beq_iff_eq] at hc
  rcases hc with rfl | rfl
  · exact absurd h (by decide)
  · exact absurd h (by decide)

/-- The text has no blank at either end. -/
def Trimmed (s : List Char) : Prop :=
  (∀ c ∈ s.head?, isBlank c = false) ∧ ∀ c ∈ s.getLast?, isBlank c = false

theorem head?_dropWhile (p : Char → Bool) (s : List Char) : ∀ c ∈ (s.dropWhile p).head?, p c = false := by
  intro c hc
  have hhead := List.head?_dropWhile_not p s
  rwa [hc] at hhead

theorem dropWhile_isBlank_eq_self {s : List Char} (h : ∀ c ∈ s.head?, isBlank c = false) :
    s.dropWhile isBlank = s := by
  cases s with
  | nil => rfl
  | cons c s => exact Solid.dropWhile ⟨c, s, rfl, h c rfl⟩

theorem trimmed_trim (s : List Char) : Trimmed (trim s) := by
  rw [trim, trimEnd, trimStart]
  refine ⟨fun c hc => ?_, fun c hc => ?_⟩
  · -- what is dropped at the end leaves a front part, which begins with the same character
    have hfront : ((s.dropWhile isBlank).reverse.dropWhile isBlank).reverse <+: s.dropWhile isBlank := by
      rw [← List.reverse_suffix, List.reverse_reverse]
      exact List.dropWhile_suffix isBlank
    obtain ⟨rest, hrest⟩ := hfront
    refine head?_dropWhile isBlank s c ?_
    rw [← hrest, Option.mem_def, List.head?_append, hc]
    rfl
  · rw [List.getLast?_reverse] at hc
    exact head?_dropWhile isBlank _ c hc

theorem trim_eq_self_iff {s : List Char} : trim s = s ↔ Trimmed s := by
  constructor
  · intro h
    exact h ▸ trimmed_trim s
  · rintro ⟨hhead, hlast⟩
    rw [← List.head?_reverse] at hlast
    rw [trim, trimStart, dropWhile_isBlank_eq_self hhead, trimEnd, dropWhile_isBlank_eq_self hlast,
      List.reverse_reverse]

/-- A text without blanks is trimmed. -/
theorem trim_eq_self {s : List Char} (h : ∀ c ∈ s, isBlank c = false) : trim s = s :=
  trim_eq_self_iff.mpr
    ⟨fun c hc => h c (List.mem_of_head? hc), fun c hc => h c (List.mem_of_getLast? hc)⟩

/-- A trimmed text that is not empty begins with a character that is no blank. -/
theorem solid_of_trim {s : List Char} (h : trim s = s) (hne : s ≠ []) : Solid s := by
  cases s with
  | nil => exact absurd rfl hne
  | cons c s => exact ⟨c, s, rfl, (trim_eq_self_iff.mp h).1 c rfl⟩

theorem mem_dropWhile_isBlank {c : Char} {s : List Char} (hc : c ∈ s) (hblank : isBlank c = false) :
    c ∈ s.dropWhile isBlank := by
  rw [← List.takeWhile_append_dropWhile (p := isBlank) (l := s), List.mem_append] at hc
  rcases hc with htaken | hrest
  · rw [List.all_eq_true.mp List.all_takeWhile c htaken] at hblank
    cases hblank
  · exact hrest

/-- Only blanks are trimmed away. -/
theorem mem_trim {c : Char} {s : List Char} (hc : c ∈ s) (hblank : isBlank c = false) : c ∈ trim s := by
  rw [trim, trimEnd, trimStart, List.mem_reverse]
  exact mem_dropWhile_isBlank (List.mem_reverse.mpr (mem_dropWhile_isBlank hc hblank)) hblank

/-- Trimming brings no new character. -/
theorem mem_of_mem_trim {c : Char} {s : List Char} (h : c ∈ trim s) : c ∈ s := by
  rw [trim, trimEnd, trimStart, List.mem_reverse] at h
  exact (List.dropWhile_suffix _).mem (List.mem_reverse.mp ((List.dropWhile_suffix _).mem h))

/-! ## Parts -/

/-- Every character before the first occurrence of `c` differs from `c`. -/
theorem ne_of_not_mem {s : List Char} {c : Char} (h : c ∉ s) : ∀ d ∈ s, decide (d ≠ c) = true := by
  intro d hd
  rw [decide_eq_true_eq]
  rintro rfl
  exact h hd

theorem not_mem_takeWhile_ne (c : Char) (s : List Char) : c ∉ s.takeWhile (· ≠ c) := by
  intro hmem
  have hne := List.all_eq_true.mp List.all_takeWhile c hmem
  rw [decide_eq_true_eq] at hne
  exact hne rfl

/-- The text up to the first occurrence of a character. -/
theorem takeWhile_ne_append {s : List Char} {c : Char} (h : c ∉ s) (rest : List Char) :
    (s ++ c :: rest).takeWhile (· ≠ c) = s := by
  rw [List.takeWhile_append_of_pos (ne_of_not_mem h)]
  simp

/-- The text from the first occurrence of a character on. -/
theorem dropWhile_ne_append {s : List Char} {c : Char} (h : c ∉ s) (rest : List Char) :
    (s ++ c :: rest).dropWhile (· ≠ c) = c :: rest := by
  rw [List.dropWhile_append_of_pos (ne_of_not_mem h)]
  simp

/-- A run of characters of a class, up to a character that is not of the class. -/
theorem takeWhile_run {p : Char → Bool} {run rest : List Char} (hrun : ∀ c ∈ run, p c = true)
    (hrest : ∀ c ∈ rest.head?, p c = false) : (run ++ rest).takeWhile p = run := by
  rw [List.takeWhile_append_of_pos hrun]
  cases rest with
  | nil => simp
  | cons c rest => rw [List.takeWhile_cons_of_neg (by simp [hrest c rfl]), List.append_nil]

theorem dropWhile_run {p : Char → Bool} {run rest : List Char} (hrun : ∀ c ∈ run, p c = true)
    (hrest : ∀ c ∈ rest.head?, p c = false) : (run ++ rest).dropWhile p = rest := by
  rw [List.dropWhile_append_of_pos hrun]
  cases rest with
  | nil => rfl
  | cons c rest => rw [List.dropWhile_cons_of_neg (by simp [hrest c rfl])]

/-- A text begins with one longest run only. -/
theorem run_unique {p : Char → Bool} {run run' rest rest' : List Char} (hrun : ∀ c ∈ run, p c = true)
    (hrest : ∀ c ∈ rest.head?, p c = false) (hrun' : ∀ c ∈ run', p c = true)
    (hrest' : ∀ c ∈ rest'.head?, p c = false) (h : run ++ rest = run' ++ rest') :
    run = run' ∧ rest = rest' := by
  refine ⟨?_, ?_⟩
  · rw [← takeWhile_run hrun hrest, h, takeWhile_run hrun' hrest']
  · rw [← dropWhile_run hrun hrest, h, dropWhile_run hrun' hrest']

/-- The text up to the first occurrence of a character is unique. -/
theorem append_cons_unique {c : Char} {s s' rest rest' : List Char} (h : c ∉ s) (h' : c ∉ s')
    (heq : s ++ c :: rest = s' ++ c :: rest') : s = s' ∧ rest = rest' := by
  have hstop : ∀ rest : List Char, ∀ d ∈ (c :: rest).head?, decide (d ≠ c) = false := by
    rintro rest d ⟨⟩
    exact decide_eq_false (not_not_intro rfl)
  obtain ⟨hs, hrest⟩ := run_unique (ne_of_not_mem h) (hstop rest) (ne_of_not_mem h') (hstop rest') heq
  exact ⟨hs, (List.cons.inj hrest).2⟩

/-- What is dropped from the front is a front part. -/
theorem eq_append_of_dropFront? {front s rest : List Char} (h : dropFront? front s = some rest) :
    s = front ++ rest := by
  induction front generalizing s with
  | nil => exact Option.some.inj h
  | cons c front ih =>
      rcases s with _ | ⟨d, s⟩
      · exact absurd h (by simp [dropFront?])
      · rw [dropFront?] at h
        split at h
        · rename_i hcd
          rw [hcd, ih h, List.cons_append]
        · exact absurd h (by simp)

/-- A front part can be dropped. -/
theorem dropFront?_append (front rest : List Char) : dropFront? front (front ++ rest) = some rest := by
  induction front with
  | nil => rfl
  | cons c front ih => rw [List.cons_append, dropFront?, if_pos rfl, ih]

/-- A text without the separator is one part. -/
theorem splitOn_of_not_mem {separator : Char} {s : List Char} (h : separator ∉ s) :
    splitOn separator s = [s] := by
  induction s with
  | nil => rfl
  | cons c s ih =>
      rw [List.mem_cons, not_or] at h
      rw [splitOn, if_neg (Ne.symm h.1), ih h.2]

/-- The first separator ends the first part. -/
theorem splitOn_append_cons {separator : Char} {s : List Char} (h : separator ∉ s)
    (rest : List Char) :
    splitOn separator (s ++ separator :: rest) = s :: splitOn separator rest := by
  induction s with
  | nil => simp [splitOn]
  | cons c s ih =>
      rw [List.mem_cons, not_or] at h
      rw [List.cons_append, splitOn, if_neg (Ne.symm h.1), ih h.2]

/-- Splitting gives back what was joined. -/
theorem splitOn_joinWith {separator : Char} {parts : List (List Char)} (hne : parts ≠ [])
    (h : ∀ part ∈ parts, separator ∉ part) :
    splitOn separator (joinWith [separator] parts) = parts := by
  induction parts with
  | nil => exact absurd rfl hne
  | cons part parts ih =>
      rw [List.forall_mem_cons] at h
      obtain ⟨hpart, hparts⟩ := h
      cases parts with
      | nil => exact splitOn_of_not_mem hpart
      | cons next parts =>
          have hjoin : joinWith [separator] (part :: next :: parts) =
              part ++ separator :: joinWith [separator] (next :: parts) := by
            simp [joinWith]
          rw [hjoin, splitOn_append_cons hpart, ih (by simp) hparts]

theorem splitOn_ne_nil (separator : Char) (s : List Char) : splitOn separator s ≠ [] := by
  cases s with
  | nil => simp [splitOn]
  | cons c s =>
      rw [splitOn]
      split
      · simp
      · split <;> simp

/-- Joining gives back what was split. -/
theorem joinWith_splitOn (separator : Char) (s : List Char) :
    joinWith [separator] (splitOn separator s) = s := by
  induction s with
  | nil => rfl
  | cons c s ih =>
      rw [splitOn]
      rcases hsplit : splitOn separator s with _ | ⟨part, parts⟩
      · exact absurd hsplit (splitOn_ne_nil separator s)
      rw [hsplit] at ih
      split
      · rename_i hc
        rw [joinWith, ih, hc]
        · rfl
        · simp
      · cases parts with
        | nil => rw [← ih]; rfl
        | cons next parts => rw [← ih]; rfl

/-- A separator anywhere in the text ends the parts before it. -/
theorem splitOn_append_separator (separator : Char) (s rest : List Char) :
    splitOn separator (s ++ separator :: rest) = splitOn separator s ++ splitOn separator rest := by
  induction s with
  | nil => simp [splitOn]
  | cons c s ih =>
      rw [List.cons_append, splitOn, splitOn]
      split
      · rw [ih, List.cons_append]
      · rcases hsplit : splitOn separator s with _ | ⟨part, parts⟩
        · exact absurd hsplit (splitOn_ne_nil separator s)
        · rw [ih, hsplit]
          rfl

/-- A character of the text is in one of its parts, unless it is the separator. -/
theorem exists_mem_splitOn {separator c : Char} {s : List Char} (hc : c ∈ s) (hne : c ≠ separator) :
    ∃ part ∈ splitOn separator s, c ∈ part := by
  induction s with
  | nil => cases hc
  | cons d s ih =>
      rw [splitOn]
      split
      · rename_i hd
        rcases List.mem_cons.mp hc with rfl | hrest
        · exact absurd hd hne
        · obtain ⟨part, hpart, hmem⟩ := ih hrest
          exact ⟨part, List.mem_cons_of_mem _ hpart, hmem⟩
      · rcases hsplit : splitOn separator s with _ | ⟨first, parts⟩
        · rcases List.mem_cons.mp hc with rfl | hrest
          · exact ⟨[c], List.mem_singleton_self _, List.mem_singleton_self _⟩
          · obtain ⟨part, hpart, -⟩ := ih hrest
            rw [hsplit] at hpart
            cases hpart
        · rcases List.mem_cons.mp hc with rfl | hrest
          · exact ⟨c :: first, List.mem_cons_self, List.mem_cons_self⟩
          · obtain ⟨part, hpart, hmem⟩ := ih hrest
            rw [hsplit] at hpart
            rcases List.mem_cons.mp hpart with rfl | hother
            · exact ⟨d :: part, List.mem_cons_self, List.mem_cons_of_mem _ hmem⟩
            · exact ⟨part, List.mem_cons_of_mem _ hother, hmem⟩

/-- The parts have the characters of the text, and never the separator. -/
theorem mem_of_mem_splitOn {separator : Char} {s part : List Char} (h : part ∈ splitOn separator s) :
    ∀ c ∈ part, c ∈ s ∧ c ≠ separator := by
  induction s generalizing part with
  | nil =>
      obtain rfl := List.mem_singleton.mp h
      exact List.forall_mem_nil _
  | cons d s ih =>
      have hback : ∀ {part}, part ∈ splitOn separator s → ∀ c ∈ part, c ∈ d :: s ∧ c ≠ separator :=
        fun hpart c hc => (ih hpart c hc).imp_left (List.mem_cons_of_mem d)
      rw [splitOn] at h
      split at h
      · rcases List.mem_cons.mp h with rfl | hrest
        · exact List.forall_mem_nil _
        · exact hback hrest
      · rename_i hd
        split at h
        · obtain rfl := List.mem_singleton.mp h
          exact List.forall_mem_singleton.mpr ⟨List.mem_cons_self, hd⟩
        · rename_i first parts hsplit
          rw [hsplit] at hback
          rcases List.mem_cons.mp h with rfl | hrest
          · exact List.forall_mem_cons.mpr ⟨⟨List.mem_cons_self, hd⟩, hback List.mem_cons_self⟩
          · exact hback (List.mem_cons_of_mem _ hrest)

/-- A character of a joined text comes from the separator or from a part. -/
theorem mem_joinWith {separator : List Char} {parts : List (List Char)} {c : Char}
    (h : c ∈ joinWith separator parts) : c ∈ separator ∨ ∃ part ∈ parts, c ∈ part := by
  induction parts with
  | nil => simp [joinWith] at h
  | cons part parts ih =>
      cases parts with
      | nil => exact Or.inr ⟨part, List.mem_cons_self, h⟩
      | cons next parts =>
          simp only [joinWith, List.mem_append] at h
          rcases h with (h | h) | h
          · exact Or.inr ⟨part, List.mem_cons_self, h⟩
          · exact Or.inl h
          · exact (ih h).imp_right fun ⟨p, hp, hc⟩ => ⟨p, List.mem_cons_of_mem _ hp, hc⟩

theorem mem_joinWith_of_mem {separator : List Char} {parts : List (List Char)} {part : List Char}
    {c : Char} (hpart : part ∈ parts) (hc : c ∈ part) : c ∈ joinWith separator parts := by
  induction parts with
  | nil => cases hpart
  | cons first parts ih =>
      cases parts with
      | nil =>
          obtain rfl := List.mem_singleton.mp hpart
          exact hc
      | cons next parts =>
          rw [joinWith, List.mem_append, List.mem_append]
          · rcases List.mem_cons.mp hpart with rfl | hrest
            · exact .inl (.inl hc)
            · exact .inr (ih hrest)
          · simp

/-- Parts of which the first is not empty make a text that is not empty. -/
theorem joinWith_ne_nil {separator : List Char} {part : List Char} {parts : List (List Char)}
    (h : part ≠ []) : joinWith separator (part :: parts) ≠ [] := by
  cases parts with
  | nil => exact h
  | cons next parts => simp [joinWith, h]

/-- Joined parts that are not empty and have no separator are known again. -/
theorem joinWith_injective {separator : Char} {parts parts' : List (List Char)}
    (h : ∀ part ∈ parts, part ≠ [] ∧ separator ∉ part)
    (h' : ∀ part ∈ parts', part ≠ [] ∧ separator ∉ part)
    (heq : joinWith [separator] parts = joinWith [separator] parts') : parts = parts' := by
  by_cases hnil : joinWith [separator] parts = []
  · have hempty : ∀ {parts : List (List Char)}, (∀ part ∈ parts, part ≠ [] ∧ separator ∉ part) →
        joinWith [separator] parts = [] → parts = [] := by
      intro parts hparts hjoin
      cases parts with
      | nil => rfl
      | cons part parts => exact absurd hjoin (joinWith_ne_nil (hparts part List.mem_cons_self).1)
    rw [hempty h hnil, hempty h' (heq ▸ hnil)]
  · have hne : ∀ {parts : List (List Char)}, joinWith [separator] parts ≠ [] → parts ≠ [] := by
      rintro parts hjoin rfl
      exact hjoin rfl
    rw [← splitOn_joinWith (hne hnil) fun part hpart => (h part hpart).2, heq,
      splitOn_joinWith (hne (heq ▸ hnil)) fun part hpart => (h' part hpart).2]

theorem joinWith_cons_cons (separator part next : List Char) (parts : List (List Char)) :
    joinWith separator (part :: next :: parts) = part ++ separator ++ joinWith separator (next :: parts) :=
  rfl

/-- A separator of several characters is its first one, with the others in front of each later part. -/
theorem joinWith_cons_eq (separator : Char) (more part : List Char) (parts : List (List Char)) :
    joinWith (separator :: more) (part :: parts) =
      joinWith [separator] (part :: parts.map (more ++ ·)) := by
  induction parts generalizing part with
  | nil => rfl
  | cons next parts ih =>
      have hfront : ∀ parts : List (List Char),
          joinWith [separator] ((more ++ next) :: parts) = more ++ joinWith [separator] (next :: parts) := by
        intro parts
        cases parts with
        | nil => rfl
        | cons later parts => simp [joinWith_cons_cons]
      rw [List.map_cons, joinWith_cons_cons, joinWith_cons_cons, hfront, ← ih]
      simp

theorem joinWith_cons_injective {separator : Char} {more : List Char} {parts parts' : List (List Char)}
    (hmore : separator ∉ more) (h : ∀ part ∈ parts, part ≠ [] ∧ separator ∉ part)
    (h' : ∀ part ∈ parts', part ≠ [] ∧ separator ∉ part)
    (heq : joinWith (separator :: more) parts = joinWith (separator :: more) parts') : parts = parts' := by
  have hlater : ∀ {part : List Char} {parts : List (List Char)},
      (∀ p ∈ part :: parts, p ≠ [] ∧ separator ∉ p) →
        ∀ p ∈ part :: parts.map (more ++ ·), p ≠ [] ∧ separator ∉ p := by
    intro part parts hparts
    obtain ⟨hpart, hrest⟩ := List.forall_mem_cons.mp hparts
    refine List.forall_mem_cons.mpr ⟨hpart, List.forall_mem_map.mpr fun p hp => ⟨?_, ?_⟩⟩
    · exact List.append_ne_nil_of_right_ne_nil _ (hrest p hp).1
    · exact List.not_mem_append hmore (hrest p hp).2
  cases parts with
  | nil =>
      cases parts' with
      | nil => rfl
      | cons part' parts' => exact absurd heq.symm (joinWith_ne_nil (h' part' List.mem_cons_self).1)
  | cons part parts =>
      cases parts' with
      | nil => exact absurd heq (joinWith_ne_nil (h part List.mem_cons_self).1)
      | cons part' parts' =>
          rw [joinWith_cons_eq separator more, joinWith_cons_eq separator more part'] at heq
          obtain ⟨hpart, hparts⟩ := List.cons.inj (joinWith_injective (hlater h) (hlater h') heq)
          rw [hpart, List.map_injective_iff.mpr (List.append_right_injective more) hparts]

/-! ## Byte offsets -/

@[simp] theorem byteLength_append (s t : List Char) :
    byteLength (s ++ t) = byteLength s + byteLength t := by
  induction s with
  | nil => simp [byteLength]
  | cons c s ih => simp [byteLength, ih, Nat.add_assoc]

/-- A cut gives two parts of the text, the first of them as long as the offset. -/
theorem eq_append_of_cut? {offset : Nat} {s front back : List Char}
    (h : cut? offset s = some (front, back)) : s = front ++ back ∧ byteLength front = offset := by
  induction s generalizing offset front with
  | nil =>
      rw [cut?] at h
      split at h
      · obtain ⟨rfl, rfl⟩ := Prod.mk.inj (Option.some.inj h)
        exact ⟨rfl, by simp [byteLength, *]⟩
      · exact absurd h (by simp)
  | cons c s ih =>
      rw [cut?] at h
      split at h
      · obtain ⟨rfl, rfl⟩ := Prod.mk.inj (Option.some.inj h)
        exact ⟨rfl, by simp [byteLength, *]⟩
      · split at h
        · obtain ⟨⟨front', back'⟩, hcut, heq⟩ := Option.map_eq_some_iff.mp h
          obtain ⟨rfl, rfl⟩ := Prod.mk.inj heq
          obtain ⟨rfl, hlength⟩ := ih hcut
          refine ⟨rfl, ?_⟩
          rw [byteLength, hlength]
          omega
        · exact absurd h (by simp)

/-- A text is cut behind any front part of it. -/
theorem cut?_append (front back : List Char) :
    cut? (byteLength front) (front ++ back) = some (front, back) := by
  induction front with
  | nil =>
      -- the offset is zero, whatever follows
      cases back <;> simp [byteLength, cut?]
  | cons c front ih =>
      have hpos : 0 < c.utf8Size := c.utf8Size_pos
      rw [List.cons_append, cut?, byteLength, if_neg (by omega), if_pos (by omega)]
      rw [Nat.add_sub_cancel_left, ih]
      rfl

/-- The slices of a text are the ways to write it as three parts. -/
theorem slice?_eq_some_iff {s middle : List Char} {start stop : Nat} :
    slice? s start stop = some middle ↔
      ∃ front back, s = front ++ middle ++ back ∧ byteLength front = start ∧
        byteLength (front ++ middle) = stop := by
  constructor
  · intro h
    simp only [slice?, Option.bind_eq_bind, Option.bind_eq_some_iff] at h
    obtain ⟨-, -, ⟨front, back⟩, hstop, ⟨front', middle'⟩, hstart, heq⟩ := h
    obtain ⟨rfl, hfront⟩ := eq_append_of_cut? hstop
    obtain ⟨rfl, hfront'⟩ := eq_append_of_cut? hstart
    obtain rfl : middle' = middle := Option.some.inj heq
    exact ⟨front', back, rfl, hfront', hfront⟩
  · rintro ⟨front, back, rfl, rfl, rfl⟩
    have hle : byteLength front ≤ byteLength (front ++ middle) := by
      rw [byteLength_append]
      exact Nat.le_add_right _ _
    rw [slice?, cut?_append, guard, if_pos hle]
    show (cut? (byteLength front) (front ++ middle)).bind (fun cut => some cut.2) = some middle
    rw [cut?_append]
    rfl

end CellGraph.Text
