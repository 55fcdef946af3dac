import CellGraph.Proofs.FunctionText.Grammar

/-!
# Printing a function again

Nothing is escaped in a function's text, so it is read back as the function that was printed only if no
field runs over into the next one. `round_trips_iff` says which functions these are.

What `parse?` returns is nearly one of them. It trims the name and the parameters, and no field holds the
character at which it ends (`legible_of_parse?`), so the header is read back field by field
(`Legible.parse?_render`). The one thing that gets lost is a parameter of which trimming leaves nothing:
an item of blanks counts as an item, and once it is printed without them it does not.
-/

namespace CellGraph.FunctionText

open Text

/-- A function whose header is read back field by field. A parameter may be empty. -/
structure Legible (f : FunctionText) : Prop where
  opened : '(' ∉ f.name.toList
  trimmed : Trimmed f.name.toList
  parameters : ∀ parameter ∈ f.parameters,
    Trimmed parameter.toList ∧ ',' ∉ parameter.toList ∧ ')' ∉ parameter.toList
  body : Solid f.body.toList

/-- What is read is legible: its parts are those of a text of the grammar. -/
theorem legible_of_parse? [IdentifierTable] {code : String} {f : FunctionText} (h : parse? code = some f) :
    Legible f := by
  obtain ⟨p, hp, -, rfl⟩ := exists_parts h
  have htrimmed : ∀ s : List Char, Trimmed (String.ofList (trim s)).toList := by
    intro s
    rw [String.toList_ofList]
    exact trimmed_trim s
  have hkept : ∀ {c : Char} {s : List Char}, c ∉ s → c ∉ (String.ofList (trim s)).toList := by
    intro c s hc
    rw [String.toList_ofList]
    exact fun hmem => hc (mem_of_mem_trim hmem)
  refine ⟨hkept hp.name, htrimmed p.name, ?_, ?_⟩
  · rw [Parts.function, List.forall_mem_map]
    intro item hitem
    obtain ⟨-, hcomma, hclose⟩ := hp.items item hitem
    exact ⟨htrimmed item, hkept hcomma, hkept hclose⟩
  · obtain ⟨c, rest, hbody⟩ := List.exists_cons_of_ne_nil hp.body
    refine ⟨c, rest, ?_, hp.space_longest c (by rw [hbody]; rfl)⟩
    rw [Parts.function, String.toList_ofList, hbody]

/-! ## What is read again -/

section

variable {f : FunctionText}

/-- Of a legible function everything is read back but the parameters, which are read as their list. -/
theorem Legible.parse?_render [IdentifierTable] (h : Legible f) :
    parse? f.render = (readParameters? (joinWith [','] (f.parameters.map String.toList))).map
      fun parameters => { f with parameters } := by
  rw [parse?, render, String.toList_ofList, renderChars_eq,
    parseChars?_eq_map (trim_eq_self_iff.mpr h.trimmed) h.opened
      (close_not_mem_joinWith fun parameter hparameter => (h.parameters parameter hparameter).2.2) h.body]
  simp only [String.ofList_toList]

theorem Legible.isParameter (h : Legible f) (hne : "" ∉ f.parameters) :
    ∀ parameter ∈ f.parameters, IsParameter parameter := by
  intro parameter hparameter
  obtain ⟨htrimmed, hcomma, hclose⟩ := h.parameters parameter hparameter
  refine ⟨fun hnil => hne ?_, trim_eq_self_iff.mpr htrimmed, hcomma, hclose⟩
  rwa [String.toList_eq_nil_iff.mp hnil] at hparameter

/-- A list in which an item is empty is refused, unless the item is all there is. -/
theorem Legible.readParameters?_eq_none (h : Legible f) (hempty : "" ∈ f.parameters)
    (hothers : f.parameters ≠ [""]) :
    readParameters? (joinWith [','] (f.parameters.map String.toList)) = none := by
  have hsplit : splitOn ',' (joinWith [','] (f.parameters.map String.toList)) =
      f.parameters.map String.toList := by
    refine splitOn_joinWith (by simpa using List.ne_nil_of_mem hempty) ?_
    rw [List.forall_mem_map]
    exact fun parameter hparameter => (h.parameters parameter hparameter).2.1
  have hne : joinWith [','] (f.parameters.map String.toList) ≠ [] := by
    intro hnil
    -- splitting the empty text gives a single part
    rw [hnil] at hsplit
    obtain ⟨parameter, hparameter⟩ : ∃ parameter, f.parameters = [parameter] :=
      List.length_eq_one_iff.mp (by simpa [splitOn] using congrArg List.length hsplit.symm)
    rw [hparameter, List.mem_singleton] at hempty
    exact hothers (hparameter.trans (congrArg (fun item => [item]) hempty.symm))
  have hitems : (f.parameters.map String.toList).any List.isEmpty = true :=
    List.any_eq_true.mpr ⟨[], List.mem_map.mpr ⟨"", hempty, rfl⟩, rfl⟩
  rw [readParameters?, if_neg hne, hsplit]
  exact if_pos hitems

/-- A legible function without an empty parameter is read back as it was. -/
theorem Legible.parse?_render_of_not_mem [IdentifierTable] (h : Legible f) (hne : "" ∉ f.parameters) :
    parse? f.render = some f := by
  rw [h.parse?_render, readParameters?_joinWith (h.isParameter hne)]
  rfl

/-- A parameter that is empty and the only one is not read again. -/
theorem Legible.parse?_render_of_eq [IdentifierTable] (h : Legible f) (honly : f.parameters = [""]) :
    parse? f.render = some { f with parameters := [] } := by
  rw [h.parse?_render, honly]
  rfl

/-- Beside others an empty parameter spoils the text. -/
theorem Legible.parse?_render_of_mem [IdentifierTable] (h : Legible f) (hempty : "" ∈ f.parameters)
    (hothers : f.parameters ≠ [""]) : parse? f.render = none := by
  rw [h.parse?_render, h.readParameters?_eq_none hempty hothers]
  rfl

theorem Legible.parse?_render_eq_self_iff [IdentifierTable] (h : Legible f) :
    parse? f.render = some f ↔ "" ∉ f.parameters := by
  refine ⟨fun hread hempty => ?_, h.parse?_render_of_not_mem⟩
  by_cases honly : f.parameters = [""]
  · rw [h.parse?_render_of_eq honly] at hread
    have hnil : [] = f.parameters := congrArg FunctionText.parameters (Option.some.inj hread)
    rw [honly] at hnil
    cases hnil
  · rw [h.parse?_render_of_mem hempty honly] at hread
    cases hread

end

/-! ## The round trips -/

/-- A function is read back as it was just if the name has no blank at either end and does not open the
parameter list, each parameter is not empty, has no blank at either end and ends neither itself nor the
list, and the body is not empty and does not begin with a blank. -/
theorem round_trips_iff [IdentifierTable] (f : FunctionText) :
    parse? f.render = some f ↔
      ('(' ∉ f.name.toList ∧ Trimmed f.name.toList) ∧
      (∀ parameter ∈ f.parameters, parameter ≠ "" ∧ Trimmed parameter.toList ∧
        ',' ∉ parameter.toList ∧ ')' ∉ parameter.toList) ∧
      f.body ≠ "" ∧ ∀ c ∈ f.body.toList.head?, isBlank c = false := by
  constructor
  · intro hread
    have hlegible := legible_of_parse? hread
    have hne := hlegible.parse?_render_eq_self_iff.mp hread
    obtain ⟨c, rest, hbody, hc⟩ := hlegible.body
    refine ⟨⟨hlegible.opened, hlegible.trimmed⟩, fun parameter hparameter => ?_, ?_, ?_⟩
    · exact ⟨fun hempty => hne (hempty ▸ hparameter), hlegible.parameters parameter hparameter⟩
    · rintro hempty
      rw [hempty] at hbody
      cases hbody
    · rw [hbody]
      rintro d ⟨⟩
      exact hc
  · rintro ⟨⟨hopened, htrimmed⟩, hparameters, hbody, hsolid⟩
    refine Legible.parse?_render_of_not_mem ⟨hopened, htrimmed, fun parameter hparameter =>
      (hparameters parameter hparameter).2, ?_⟩ fun hempty => (hparameters "" hempty).1 rfl
    rcases hchars : f.body.toList with _ | ⟨c, rest⟩
    · exact absurd (String.toList_eq_nil_iff.mp hchars) hbody
    · exact ⟨c, rest, rfl, hsolid c (by rw [hchars]; rfl)⟩

/-- A function that was read is read again from its printed text just if it has no empty parameter. With an
empty parameter alone the text is that of a function without parameters; with one beside others it is no
function's text. -/
theorem reprinted_reads_back_iff [IdentifierTable] (code : String) (f : FunctionText)
    (h : parse? code = some f) :
    (parse? f.render = some f ↔ "" ∉ f.parameters) ∧
    (f.parameters = [""] → parse? f.render = some { f with parameters := [] }) ∧
    ("" ∈ f.parameters → f.parameters ≠ [""] → parse? f.render = none) := by
  have hlegible := legible_of_parse? h
  exact ⟨hlegible.parse?_render_eq_self_iff, hlegible.parse?_render_of_eq, hlegible.parse?_render_of_mem⟩

/-- Blanks of several sorts in the header and in the parameter list. -/
theorem reprinted_reads_back_spaced :
    let f : FunctionText := {
      kind := .asyncGenerator
      name := "é f"
      parameters := ["a", "$0 b"]
      body := "\x7b\x7d " }
    parse? "async \tfunction*  é f\n(\na ,\t$0 b\xa0)\n\n\x7b\x7d " = some f ∧ parse? f.render = some f := by
  intro f
  have hread : parse? "async \tfunction*  é f\n(\na ,\t$0 b\xa0)\n\n\x7b\x7d " = some f := by decide +kernel
  exact ⟨hread, (reprinted_reads_back_iff _ f hread).1.mpr (by decide)⟩

/-- An item of a single blank is a parameter, and printing it leaves an empty list. -/
theorem blank_parameter_lost :
    let f : FunctionText := { kind := .plain, name := "f", parameters := [""], body := "\x7b\x7d" }
    parse? "function f( ) \x7b\x7d" = some f ∧ parse? f.render = some { f with parameters := [] } ∧
      parse? f.render ≠ some f := by
  decide +kernel

end CellGraph.FunctionText
