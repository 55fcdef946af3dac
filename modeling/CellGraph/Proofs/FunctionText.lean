import CellGraph.FunctionText
import CellGraph.Proofs.Text

/-!
# Reading back what was written

A function's text holds its name, its parameters and its body as they are, without any escape. So what
`render` writes is read back only if no field runs over into the next one: `Writable` says when, and
`parse?_render` is the round trip.
-/

namespace CellGraph.FunctionText

open Text

/-- A text that a parameter list holds as one item: it is not empty, has no blank at either end, and
ends neither the item nor the list. -/
structure IsParameter (s : String) : Prop where
  ne_nil : s.toList ≠ []
  trimmed : trim s.toList = s.toList
  comma : ',' ∉ s.toList
  close : ')' ∉ s.toList

instance : DecidablePred IsParameter := fun s =>
  decidable_of_iff (s.toList ≠ [] ∧ trim s.toList = s.toList ∧ ',' ∉ s.toList ∧ ')' ∉ s.toList)
    ⟨fun ⟨hne, htrimmed, hcomma, hclose⟩ => ⟨hne, htrimmed, hcomma, hclose⟩,
      fun h => ⟨h.ne_nil, h.trimmed, h.comma, h.close⟩⟩

/-- A function whose fields stay apart when they are written one after the other. -/
structure Writable (f : FunctionText) : Prop where
  trimmed : trim f.name.toList = f.name.toList
  opened : '(' ∉ f.name.toList
  parameters : ∀ parameter ∈ f.parameters, IsParameter parameter
  body : Solid f.body.toList

/-! ## The header -/

/-- What `render` writes, grouped from the right: the order in which it is read. -/
theorem renderChars_eq (f : FunctionText) :
    f.renderChars = f.kind.opening ++ ' ' :: (f.name.toList ++
      '(' :: (joinWith [','] (f.parameters.map String.toList) ++ ')' :: ' ' :: f.body.toList)) := by
  simp [renderChars]

/-- The opening words of each kind are read as that kind, whatever the header goes on with. -/
theorem read_opening [IdentifierTable] (kind : FunctionKind) (rest : List Char) :
    ∃ isAsync isGenerator afterAsync afterFunction,
      readAsync (kind.opening ++ ' ' :: rest) = (isAsync, afterAsync) ∧
        readFunction? afterAsync = some afterFunction ∧
        readStar afterFunction = (isGenerator, ' ' :: rest) ∧
        FunctionKind.of isAsync isGenerator = kind := by
  rcases kind with _ | _ | _ | _
  · exact ⟨false, false, _, ' ' :: rest, rfl, rfl, rfl, rfl⟩
  · exact ⟨true, false, _, ' ' :: rest, rfl, rfl, rfl, rfl⟩
  · exact ⟨false, true, _, '*' :: ' ' :: rest, rfl, rfl, rfl, rfl⟩
  · exact ⟨true, true, _, '*' :: ' ' :: rest, rfl, rfl, rfl, rfl⟩

/-- The space before a trimmed name is all that is dropped in front of its parenthesis. -/
theorem dropWhile_isInlineBlank_name {name : List Char} (h : trim name = name) (rest : List Char) :
    (' ' :: (name ++ '(' :: rest)).dropWhile isInlineBlank = name ++ '(' :: rest := by
  rw [List.dropWhile_cons_of_pos (by decide)]
  by_cases hname : name = []
  · subst hname
    rfl
  · obtain ⟨c, s, rfl, hc⟩ := solid_of_trim h hname
    rw [List.cons_append, List.dropWhile_cons_of_neg (by simp [isInlineBlank_eq_false hc])]

/-! ## The parameter list -/

/-- A parameter list ends only where one of its items does. -/
theorem close_not_mem_joinWith {parameters : List String}
    (h : ∀ parameter ∈ parameters, ')' ∉ parameter.toList) :
    ')' ∉ joinWith [','] (parameters.map String.toList) := by
  intro hmem
  rcases mem_joinWith hmem with hcomma | ⟨part, hpart, hc⟩
  · exact absurd hcomma (by decide)
  · obtain ⟨parameter, hparameter, rfl⟩ := List.mem_map.mp hpart
    exact h parameter hparameter hc

/-- A parameter list is read back as it was written. -/
theorem readParameters?_joinWith {parameters : List String}
    (h : ∀ parameter ∈ parameters, IsParameter parameter) :
    readParameters? (joinWith [','] (parameters.map String.toList)) = some parameters := by
  rcases parameters with _ | ⟨first, others⟩
  · rfl
  have hne : joinWith [','] ((first :: others).map String.toList) ≠ [] :=
    joinWith_ne_nil (h first List.mem_cons_self).ne_nil
  have hsplit : splitOn ',' (joinWith [','] ((first :: others).map String.toList)) =
      (first :: others).map String.toList := by
    refine splitOn_joinWith (by simp) fun part hpart => ?_
    obtain ⟨parameter, hparameter, rfl⟩ := List.mem_map.mp hpart
    exact (h parameter hparameter).comma
  have hitems : ((first :: others).map String.toList).any List.isEmpty = false := by
    rw [List.any_eq_false]
    intro part hpart
    obtain ⟨parameter, hparameter, rfl⟩ := List.mem_map.mp hpart
    simpa using (h parameter hparameter).ne_nil
  have htrim : ((first :: others).map String.toList).map (fun item => String.ofList (trim item)) =
      first :: others := by
    rw [List.map_map]
    refine (List.map_congr_left fun parameter hparameter => ?_).trans (List.map_id _)
    rw [Function.comp_apply, (h parameter hparameter).trimmed, String.ofList_toList, id]
  rw [readParameters?, if_neg hne, hsplit]
  simp only [hitems, htrim, Bool.false_eq_true, if_false]

/-- Every character between the parentheses, blanks and commas aside, is in one of the parameters
read. -/
theorem exists_mem_of_readParameters? {s : List Char} {parameters : List String} {c : Char}
    (h : readParameters? s = some parameters) (hc : c ∈ s) (hblank : isBlank c = false)
    (hcomma : c ≠ ',') : ∃ parameter ∈ parameters, c ∈ parameter.toList := by
  rw [readParameters?, if_neg (List.ne_nil_of_mem hc)] at h
  dsimp only at h
  split at h
  · cases h
  obtain rfl := Option.some.inj h
  obtain ⟨item, hitem, hmem⟩ := exists_mem_splitOn hc hcomma
  refine ⟨_, List.mem_map_of_mem hitem, ?_⟩
  rw [String.toList_ofList]
  exact mem_trim hmem hblank

/-! ## The round trip -/

variable [IdentifierTable]

/-- What a text with the opening words of a kind is read as. -/
theorem parseChars?_eq_some {kind : FunctionKind} {name rest : List Char} {f : FunctionText}
    (htrimmed : trim name = name)
    (h : parseChars? (kind.opening ++ ' ' :: (name ++ '(' :: rest)) = some f) :
    f.kind = kind ∧ ∃ inner tail, (name ++ '(' :: rest).dropWhile (· ≠ '(') = '(' :: inner ∧
      readParameters? (inner.takeWhile (· ≠ ')')) = some f.parameters ∧
      inner.dropWhile (· ≠ ')') = ')' :: tail ∧ f.body = String.ofList (tail.dropWhile isBlank) := by
  obtain ⟨isAsync, isGenerator, afterAsync, afterFunction, hasync, hfunction, hstar, hkind⟩ :=
    read_opening kind (name ++ '(' :: rest)
  rw [parseChars?, hasync] at h
  simp only [hfunction, hstar, Option.bind_eq_bind, Option.bind_some,
    dropWhile_isInlineBlank_name htrimmed, Option.bind_eq_some_iff] at h
  obtain ⟨inner, hinner, parameters, hparameters, tail, htail, -, -, hf⟩ := h
  obtain rfl := Option.some.inj hf
  exact ⟨hkind, inner, tail, eq_append_of_dropFront? hinner, hparameters,
    eq_append_of_dropFront? htail, rfl⟩

/-- A header whose fields stay apart is read field by field, whatever stands between the commas of the
parameter list. -/
theorem parseChars?_eq_map {name list body : List Char} (htrimmed : trim name = name)
    (hopened : '(' ∉ name) (hclose : ')' ∉ list) (hbody : Solid body) (kind : FunctionKind) :
    parseChars? (kind.opening ++ ' ' :: (name ++ '(' :: (list ++ ')' :: ' ' :: body))) =
      (readParameters? list).map fun parameters =>
        { kind, name := String.ofList name, parameters, body := String.ofList body } := by
  obtain ⟨isAsync, isGenerator, afterAsync, afterFunction, hasync, hfunction, hstar, hkind⟩ :=
    read_opening kind (name ++ '(' :: (list ++ ')' :: ' ' :: body))
  have hblank : (' ' :: body).dropWhile isBlank = body := by
    rw [List.dropWhile_cons_of_pos (by decide), hbody.dropWhile]
  have hguard : body ≠ [] := by
    obtain ⟨c, rest, hbody, -⟩ := hbody
    rw [hbody]
    exact List.cons_ne_nil c rest
  rw [parseChars?, hasync]
  simp only [hfunction, hstar, Option.bind_eq_bind, Option.bind_some,
    dropWhile_isInlineBlank_name htrimmed, takeWhile_ne_append hopened, dropWhile_ne_append hopened,
    takeWhile_ne_append hclose, dropWhile_ne_append hclose, dropFront?, if_true, hblank, hkind, htrimmed]
  rw [guard, if_pos hguard, Option.map_eq_bind]
  rfl

theorem parseChars?_header {name list body : List Char} {parameters : List String}
    (htrimmed : trim name = name) (hopened : '(' ∉ name) (hclose : ')' ∉ list)
    (hparameters : readParameters? list = some parameters) (hbody : Solid body) (kind : FunctionKind) :
    parseChars? (kind.opening ++ ' ' :: (name ++ '(' :: (list ++ ')' :: ' ' :: body))) =
      some { kind, name := String.ofList name, parameters, body := String.ofList body } := by
  rw [parseChars?_eq_map htrimmed hopened hclose hbody, hparameters]
  rfl

/-- A function whose fields stay apart is read back as it was. -/
theorem parse?_render {f : FunctionText} (h : Writable f) : parse? f.render = some f := by
  rw [parse?, render, String.toList_ofList, renderChars_eq,
    parseChars?_header h.trimmed h.opened
      (close_not_mem_joinWith fun parameter hparameter => (h.parameters parameter hparameter).close)
      (readParameters?_joinWith h.parameters) h.body]
  simp only [String.ofList_toList]

end CellGraph.FunctionText
