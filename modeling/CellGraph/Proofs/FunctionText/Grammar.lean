import CellGraph.Proofs.FunctionText
import CellGraph.Text.Unicode

/-!
# The grammar of a function's text

What `parse?` accepts, said without reading: a text that can be written as the parts of a function one
after the other (`Parts.text`), with conditions on the parts (`Parts.Grammatical`). Where a part is a run
of characters of some class, the condition is that it is as long as it can be. That is what makes the parts
of a text unique, and what a reader that never goes back finds: each reader takes just the part that the
grammar has in its place, and none of them sees more of the text than what follows.
-/

namespace CellGraph.FunctionText

open Text FunctionKind

/-! ## Parts -/

/-- The parts of a function's text, in the order in which they are written. -/
structure Parts where
  /-- The word `async` with the blanks after it, or nothing. -/
  qualifier : List Char
  /-- The star of a generator, or nothing. -/
  star : List Char
  /-- The spaces and tabs in front of the name. -/
  gap : List Char
  name : List Char
  /-- What stands between the commas of the parameter list. -/
  items : List (List Char)
  /-- The blanks in front of the body. -/
  space : List Char
  body : List Char

namespace Parts

/-- The text from the name on. -/
def fromName (p : Parts) : List Char :=
  p.name ++ '(' :: (joinWith [','] p.items ++ ')' :: (p.space ++ p.body))

/-- The text after the word `function`. -/
def afterWord (p : Parts) : List Char :=
  p.star ++ (p.gap ++ p.fromName)

/-- The parts one after the other. -/
def text (p : Parts) : List Char :=
  p.qualifier ++ (functionWord ++ p.afterWord)

/-- The function that has these parts. -/
def function (p : Parts) : FunctionText where
  kind := .of (p.qualifier ≠ []) (p.star ≠ [])
  name := String.ofList (trim p.name)
  parameters := p.items.map fun item => String.ofList (trim item)
  body := String.ofList p.body

/-- Nothing, or the word `async` with at least one space or tab after it. -/
def IsQualifier (s : List Char) : Prop :=
  s = [] ∨ ∃ blanks, s = asyncWord ++ blanks ∧ blanks ≠ [] ∧ ∀ c ∈ blanks, isInlineBlank c = true

/-- Parts that make a function's text. -/
structure Grammatical [IdentifierTable] (p : Parts) : Prop where
  qualifier : IsQualifier p.qualifier
  /-- `function` is a whole word. -/
  word : ∀ c ∈ p.afterWord.head?, continuesIdentifier c = false
  /-- A star right after the word belongs to it. -/
  star : p.star = ['*'] ∨ p.star = [] ∧ (p.gap ++ p.fromName).head? ≠ some '*'
  gap : ∀ c ∈ p.gap, isInlineBlank c = true
  /-- No space or tab is left after the gap. -/
  gap_longest : ∀ c ∈ p.fromName.head?, isInlineBlank c = false
  name : '(' ∉ p.name
  items : ∀ item ∈ p.items, item ≠ [] ∧ ',' ∉ item ∧ ')' ∉ item
  space : ∀ c ∈ p.space, isBlank c = true
  /-- No blank is left after the space. -/
  space_longest : ∀ c ∈ p.body.head?, isBlank c = false
  body : p.body ≠ []

end Parts

/-! ## Readers -/

/-- A qualifier is read up to the word `function`, where the blanks after `async` end. -/
theorem readAsync_append {qualifier : List Char} (h : Parts.IsQualifier qualifier) (rest : List Char) :
    readAsync (qualifier ++ (functionWord ++ rest)) =
      (decide (qualifier ≠ []), functionWord ++ rest) := by
  rcases h with rfl | ⟨blanks, rfl, hne, hblanks⟩
  · rfl
  obtain ⟨c, blanks, rfl⟩ := List.exists_cons_of_ne_nil hne
  rw [List.forall_mem_cons] at hblanks
  have hstop : ∀ c ∈ (functionWord ++ rest).head?, isInlineBlank c = false := by
    rintro c ⟨⟩
    decide
  rw [readAsync, List.append_assoc, dropFront?_append]
  simp only [List.cons_append, hblanks.1, if_true, dropWhile_run hblanks.2 hstop]
  rfl

/-- What is read as `async` is a qualifier, or nothing is read. -/
theorem readAsync_spec {s rest : List Char} {isAsync : Bool} (h : readAsync s = (isAsync, rest)) :
    ∃ qualifier, s = qualifier ++ rest ∧ isAsync = decide (qualifier ≠ []) ∧
      Parts.IsQualifier qualifier := by
  have hnothing (h : (false, s) = (isAsync, rest)) : ∃ qualifier, s = qualifier ++ rest ∧
      isAsync = decide (qualifier ≠ []) ∧ Parts.IsQualifier qualifier := by
    obtain ⟨rfl, rfl⟩ := Prod.mk.inj h
    exact ⟨[], rfl, rfl, .inl rfl⟩
  rw [readAsync] at h
  split at h
  · rename_i c after hdrop
    split at h
    · rename_i hc
      obtain ⟨rfl, rfl⟩ := Prod.mk.inj h
      refine ⟨asyncWord ++ c :: after.takeWhile isInlineBlank, ?_, rfl,
        .inr ⟨_, rfl, List.cons_ne_nil _ _, List.forall_mem_cons.mpr ⟨hc, ?_⟩⟩⟩
      · rw [eq_append_of_dropFront? hdrop, List.append_assoc, List.cons_append,
          List.takeWhile_append_dropWhile]
      · exact List.all_eq_true.mp List.all_takeWhile
    · exact hnothing h
  · exact hnothing h

/-- The word `function` is read where it stands and no identifier goes on after it. -/
theorem readFunction?_eq_some_iff [IdentifierTable] {s rest : List Char} :
    readFunction? s = some rest ↔
      s = functionWord ++ rest ∧ ∀ c ∈ rest.head?, continuesIdentifier c = false := by
  constructor
  · intro h
    rw [readFunction?] at h
    split at h
    · rename_i c after hdrop
      split at h
      · cases h
      · rename_i hc
        obtain rfl := Option.some.inj h
        refine ⟨eq_append_of_dropFront? hdrop, ?_⟩
        rintro d ⟨⟩
        exact Bool.not_eq_true _ ▸ hc
    · rename_i hother
      refine ⟨eq_append_of_dropFront? h, fun c hc => ?_⟩
      obtain ⟨after, rfl⟩ := List.head?_eq_some_iff.mp hc
      exact absurd h (hother c after)
  · rintro ⟨rfl, hword⟩
    rw [readFunction?, dropFront?_append]
    cases rest with
    | nil => rfl
    | cons c rest => simp [hword c rfl]

/-- A star is read where one stands. -/
theorem readStar_eq_iff {s rest : List Char} {isGenerator : Bool} :
    readStar s = (isGenerator, rest) ↔ ∃ star, s = star ++ rest ∧ isGenerator = decide (star ≠ []) ∧
      (star = ['*'] ∨ star = [] ∧ rest.head? ≠ some '*') := by
  constructor
  · intro h
    unfold readStar at h
    split at h
    · obtain ⟨rfl, rfl⟩ := Prod.mk.inj h
      exact ⟨['*'], rfl, rfl, .inl rfl⟩
    · rename_i hother
      obtain ⟨rfl, rfl⟩ := Prod.mk.inj h
      refine ⟨[], rfl, rfl, .inr ⟨rfl, fun hhead => ?_⟩⟩
      obtain ⟨after, rfl⟩ := List.head?_eq_some_iff.mp hhead
      exact hother after rfl
  · rintro ⟨star, rfl, rfl, rfl | ⟨rfl, hhead⟩⟩
    · rfl
    · rw [List.nil_append, readStar]
      · rfl
      · rintro after rfl
        exact hhead rfl

/-- The parameters are the items between the commas, if there is any text and no item is empty. -/
theorem readParameters?_eq_some_iff {s : List Char} {parameters : List String} :
    readParameters? s = some parameters ↔ ∃ items, s = joinWith [','] items ∧
      (∀ item ∈ items, item ≠ [] ∧ ',' ∉ item) ∧
      parameters = items.map fun item => String.ofList (trim item) := by
  constructor
  · intro h
    rw [readParameters?] at h
    dsimp only at h
    split_ifs at h with hs hempty
    · obtain rfl := Option.some.inj h
      exact ⟨[], hs, List.forall_mem_nil _, rfl⟩
    · obtain rfl := Option.some.inj h
      refine ⟨splitOn ',' s, (joinWith_splitOn ',' s).symm, fun item hitem => ⟨?_, fun hcomma => ?_⟩, rfl⟩
      · rintro rfl
        exact hempty (List.any_eq_true.mpr ⟨[], hitem, rfl⟩)
      · exact (mem_of_mem_splitOn hitem _ hcomma).2 rfl
  · rintro ⟨items, rfl, hitems, rfl⟩
    cases items with
    | nil => rfl
    | cons item items =>
        have hempty : ((item :: items).any List.isEmpty) = false := by
          rw [List.any_eq_false]
          intro part hpart
          simpa using (hitems part hpart).1
        rw [readParameters?, if_neg (joinWith_ne_nil (hitems item List.mem_cons_self).1),
          splitOn_joinWith (List.cons_ne_nil _ _) fun part hpart => (hitems part hpart).2]
        simp only [hempty, Bool.false_eq_true, if_false]

/-! ## The grammar -/

section

variable [IdentifierTable]

namespace Parts.Grammatical

variable {p q : Parts}

/-- What the readers find in front of the name, one after the other. -/
theorem reads_opening (h : p.Grammatical) :
    readAsync p.text = (decide (p.qualifier ≠ []), functionWord ++ p.afterWord) ∧
      readFunction? (functionWord ++ p.afterWord) = some p.afterWord ∧
      readStar p.afterWord = (decide (p.star ≠ []), p.gap ++ p.fromName) :=
  ⟨readAsync_append h.qualifier _, readFunction?_eq_some_iff.mpr ⟨rfl, h.word⟩,
    readStar_eq_iff.mpr ⟨p.star, rfl, rfl, h.star⟩⟩

theorem close_not_mem (h : p.Grammatical) : ')' ∉ joinWith [','] p.items := by
  intro hmem
  rcases mem_joinWith hmem with hcomma | ⟨item, hitem, hclose⟩
  · exact absurd hcomma (by decide)
  · exact (h.items item hitem).2.2 hclose

theorem readParameters?_eq (h : p.Grammatical) :
    readParameters? (joinWith [','] p.items) = some p.function.parameters :=
  readParameters?_eq_some_iff.mpr
    ⟨p.items, rfl, fun item hitem => ⟨(h.items item hitem).1, (h.items item hitem).2.1⟩, rfl⟩

/-- A text of the grammar is read as the function that has its parts. -/
theorem parseChars?_text (h : p.Grammatical) : parseChars? p.text = some p.function := by
  obtain ⟨hasync, hfunction, hstar⟩ := h.reads_opening
  rw [parseChars?, hasync]
  simp only [hfunction, hstar, Option.bind_eq_bind, Option.bind_some, dropWhile_run h.gap h.gap_longest]
  rw [fromName]
  simp only [takeWhile_ne_append h.name, dropWhile_ne_append h.name, takeWhile_ne_append h.close_not_mem,
    dropWhile_ne_append h.close_not_mem, dropFront?, if_true, h.readParameters?_eq,
    dropWhile_run h.space h.space_longest, Option.bind_some]
  rw [guard, if_pos h.body]
  rfl

/-- A text has its parts in one way only. -/
theorem unique (hp : p.Grammatical) (hq : q.Grammatical) (h : p.text = q.text) : p = q := by
  obtain ⟨hasync, -, hstar⟩ := hp.reads_opening
  obtain ⟨hasync', -, hstar'⟩ := hq.reads_opening
  -- the readers see the same text, so what they leave is the same
  rw [h, hasync'] at hasync
  have hafter : p.afterWord = q.afterWord := (List.append_cancel_left (Prod.mk.inj hasync).2).symm
  rw [hafter, hstar'] at hstar
  have hheader : p.gap ++ p.fromName = q.gap ++ q.fromName := (Prod.mk.inj hstar).2.symm
  have hqualifier : p.qualifier = q.qualifier := by
    rw [text, text, hafter] at h
    exact List.append_cancel_right h
  have hstars : p.star = q.star := by
    rw [afterWord, afterWord, hheader] at hafter
    exact List.append_cancel_right hafter
  obtain ⟨hgap, hnames⟩ := run_unique hp.gap hp.gap_longest hq.gap hq.gap_longest hheader
  obtain ⟨hname, hlists⟩ := append_cons_unique hp.name hq.name hnames
  obtain ⟨hlist, hbodies⟩ := append_cons_unique hp.close_not_mem hq.close_not_mem hlists
  have hitems : p.items = q.items :=
    joinWith_injective (fun item hitem => ⟨(hp.items item hitem).1, (hp.items item hitem).2.1⟩)
      (fun item hitem => ⟨(hq.items item hitem).1, (hq.items item hitem).2.1⟩) hlist
  obtain ⟨hspace, hbody⟩ := run_unique hp.space hp.space_longest hq.space hq.space_longest hbodies
  rcases p with ⟨qualifier, star, gap, name, items, space, body⟩
  rcases q with ⟨qualifier', star', gap', name', items', space', body'⟩
  dsimp only at hqualifier hstars hgap hname hitems hspace hbody
  rw [hqualifier, hstars, hgap, hname, hitems, hspace, hbody]

end Parts.Grammatical

/-- What is read has the parts of a function. -/
theorem exists_parts {s : List Char} {f : FunctionText} (h : parseChars? s = some f) :
    ∃ p : Parts, p.Grammatical ∧ p.text = s ∧ p.function = f := by
  rcases hasync : readAsync s with ⟨isAsync, afterAsync⟩
  rw [parseChars?, hasync] at h
  simp only [Option.bind_eq_bind, Option.bind_eq_some_iff] at h
  obtain ⟨afterFunction, hfunction, h⟩ := h
  rcases hstar : readStar afterFunction with ⟨isGenerator, header⟩
  rw [hstar] at h
  obtain ⟨inner, hinner, parameters, hparameters, tail, htail, ⟨⟩, hbody, hf⟩ := h
  obtain ⟨qualifier, rfl, rfl, hqualifier⟩ := readAsync_spec hasync
  obtain ⟨rfl, hword⟩ := readFunction?_eq_some_iff.mp hfunction
  obtain ⟨star, rfl, rfl, hstar⟩ := readStar_eq_iff.mp hstar
  obtain ⟨items, hlist, hitems, rfl⟩ := readParameters?_eq_some_iff.mp hparameters
  have hname := List.takeWhile_append_dropWhile (p := (· ≠ '(')) (l := header.dropWhile isInlineBlank)
  have hclosed := List.takeWhile_append_dropWhile (p := (· ≠ ')')) (l := inner)
  rw [eq_append_of_dropFront? hinner] at hname
  rw [hlist, eq_append_of_dropFront? htail] at hclosed
  let p : Parts := {
    qualifier, star, items
    gap := header.takeWhile isInlineBlank
    name := (header.dropWhile isInlineBlank).takeWhile (· ≠ '(')
    space := tail.takeWhile isBlank
    body := tail.dropWhile isBlank }
  have hfromName : p.fromName = header.dropWhile isInlineBlank := by
    rw [← hname, ← hclosed]
    simp only [Parts.fromName, p, List.takeWhile_append_dropWhile, List.cons_append, List.nil_append]
  have hheader : p.gap ++ p.fromName = header := by
    rw [hfromName]
    exact List.takeWhile_append_dropWhile
  have hafterWord : p.afterWord = star ++ header := by rw [Parts.afterWord, hheader]
  refine ⟨p, ⟨hqualifier, ?_, ?_, ?_, ?_, ?_, ?_, ?_, ?_, ?_⟩, ?_, ?_⟩
  · rwa [hafterWord]
  · rwa [hheader]
  · exact List.all_eq_true.mp List.all_takeWhile
  · rw [hfromName]
    exact head?_dropWhile _ _
  · exact not_mem_takeWhile_ne _ _
  · intro item hitem
    refine ⟨(hitems item hitem).1, (hitems item hitem).2, fun hclose => ?_⟩
    exact not_mem_takeWhile_ne ')' inner (hlist ▸ mem_joinWith_of_mem hitem hclose)
  · exact List.all_eq_true.mp List.all_takeWhile
  · exact head?_dropWhile _ _
  · intro hnil
    rw [show tail.dropWhile isBlank = [] from hnil] at hbody
    exact absurd hbody (by simp [guard])
  · rw [Parts.text, hafterWord]
  · exact Option.some.inj hf

/-- A text is read as a function just if it has the function's parts one after the other, and it has them
in one way only. -/
theorem reads_exactly_the_grammar (code : String) :
    (∀ f, parse? code = some f ↔ ∃ p : Parts, p.Grammatical ∧ p.text = code.toList ∧ p.function = f) ∧
    ∀ p q : Parts, p.Grammatical → p.text = code.toList → q.Grammatical → q.text = code.toList → p = q := by
  refine ⟨fun f => ⟨exists_parts, ?_⟩, fun p q hp hptext hq hqtext => hp.unique hq (hptext.trans hqtext.symm)⟩
  rintro ⟨p, hp, htext, rfl⟩
  rw [parse?, ← htext, hp.parseChars?_text]

end

/-- Blanks of several sorts, a second star that belongs to the name, a parenthesis in an item, and an item of
which trimming leaves nothing. -/
theorem reads_exactly_the_grammar_spaced :
    let code := "async \tfunction*\t *é\n(\n(a, )\n\xa0\x7b\x7d "
    let p : Parts := {
      qualifier := "async \t".toList
      star := ['*']
      gap := "\t ".toList
      name := "*é\n".toList
      items := ["\n(a".toList, " ".toList]
      space := "\n\xa0".toList
      body := "\x7b\x7d ".toList }
    p.Grammatical ∧ parse? code = some p.function ∧
      p.function = { kind := .asyncGenerator, name := "*é", parameters := ["(a", ""], body := "\x7b\x7d " } ∧
      ∀ q : Parts, q.Grammatical → q.text = code.toList → q = p := by
  intro code p
  have hp : p.Grammatical :=
    { qualifier := .inr ⟨[' ', '\t'], rfl, by decide, List.all_eq_true.mp (by decide)⟩
      word := by
        rintro c ⟨⟩
        decide +kernel
      star := .inl rfl
      gap := List.all_eq_true.mp (by decide)
      gap_longest := by
        rintro c ⟨⟩
        decide
      name := by decide
      items := by decide
      space := List.all_eq_true.mp (by decide)
      space_longest := by
        rintro c ⟨⟩
        decide
      body := by decide }
  have htext : p.text = code.toList := by decide +kernel
  obtain ⟨hread, hunique⟩ := reads_exactly_the_grammar code
  exact ⟨hp, (hread _).mpr ⟨p, hp, htext, rfl⟩, by decide +kernel,
    fun q hq hqtext => hunique q p hq hqtext hp htext⟩

/-- A star away from the word is part of the name; a trailing comma, a blank body and a word that goes on are
refused. -/
example : parse? "function *f() \x7b\x7d" = some { kind := .plain, name := "*f", parameters := [], body := "\x7b\x7d" } ∧
    parse? "function f(a,) \x7b\x7d" = none ∧ parse? "function f() \n" = none ∧
    parse? "asyncfunction f() \x7b\x7d" = none ∧ parse? "functions() \x7b\x7d" = none := by
  decide +kernel

end CellGraph.FunctionText
