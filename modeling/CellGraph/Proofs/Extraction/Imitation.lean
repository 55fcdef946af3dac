import CellGraph.Proofs.Extraction.Parameters
import CellGraph.Proofs.Mutables

/-!
# Written cells that pass for helpers

A generated cell is known again by its function alone: the kind, the parameters and the text of the body.
Nothing in them says who wrote it, so a cell that somebody wrote passes for a helper if it is written like
one. `Imitates` says when, in terms of the parsed cell: it is a block with the helper's text and refers to
the helper's parameters by plain names. That these are all such cells rests on which characters helpers do
not have. A token has a digit, and the canonical name of a view or mutable begins with a small letter that
no parameter of a helper has; and a name or parameter that runs over into the rest of the header leaves a
parenthesis where a helper has none.
-/

namespace CellGraph.Extraction

open Ast Text FunctionText

/-! ## Helpers -/

theorem Helper.recognize?_eq_some_iff {f : FunctionText} {h : Helper} :
    recognize? f = some h ↔ f.kind = .plain ∧ f.parameters = h.parameters ∧ f.body = h.body := by
  constructor
  · intro hf
    rw [recognize?] at hf
    split_ifs at hf with hkind
    have hfound := List.find?_some hf
    rw [decide_eq_true_eq] at hfound
    exact ⟨hkind, hfound⟩
  · rcases f with ⟨kind, name, parameters, body⟩
    rintro ⟨rfl, rfl, rfl⟩
    exact h.recognize?_eq name

/-- Characters that the parameters of helpers do not have. -/
theorem Helper.parameters_chars (h : Helper) : ∀ parameter ∈ h.parameters, ∀ c ∈ parameter.toList,
    c ≠ '(' ∧ c ≠ ')' ∧ c ≠ 'v' ∧ c ≠ 'm' ∧ c.isDigit = false := by
  have hall : (h.parameters.all fun parameter => parameter.toList.all fun c =>
      c ≠ '(' ∧ c ≠ ')' ∧ c ≠ 'v' ∧ c ≠ 'm' ∧ c.isDigit = false) = true := by
    cases h <;> decide
  simpa only [List.all_eq_true, decide_eq_true_eq] using hall

theorem Helper.body_front (h : Helper) : ∃ rest, h.body.toList = '\x7b' :: ' ' :: rest := by
  cases h <;> exact ⟨_, rfl⟩

/-- In the body of a helper no blank follows a closing parenthesis. -/
theorem Helper.body_close (h : Helper) (front back : List Char) :
    h.body.toList ≠ front ++ ')' :: ' ' :: back := by
  intro heq
  have hinfix : [')', ' '] <:+: h.body.toList := ⟨front, back, by rw [heq]; simp⟩
  revert hinfix
  cases h <;> decide

/-! ## The header -/

section

variable {kind : FunctionKind} {name list body : List Char} {f : FunctionText} {h : Helper}

/-- A character that no helper's parameter has does not stand between the parentheses. -/
theorem not_mem_of_readParameters? {c : Char} (hread : readParameters? list = some h.parameters)
    (hblank : isBlank c = false) (hcomma : c ≠ ',')
    (hc : c = '(' ∨ c = ')' ∨ c = 'v' ∨ c = 'm' ∨ c.isDigit = true) : c ∉ list := by
  intro hmem
  obtain ⟨parameter, hparameter, hchar⟩ := exists_mem_of_readParameters? hread hmem hblank hcomma
  obtain ⟨hopen, hclose, hv, hm, hdigit⟩ := h.parameters_chars parameter hparameter c hchar
  rcases hc with rfl | rfl | rfl | rfl | hc
  · exact hopen rfl
  · exact hclose rfl
  · exact hv rfl
  · exact hm rfl
  · rw [hc] at hdigit
    cases hdigit

/-- A function that is known as a helper has no parenthesis in what was written for its name. -/
theorem open_not_mem_of_recognized [IdentifierTable] {rest : List Char} (hname : ∀ c ∈ name, isBlank c = false)
    (hparse : parseChars? (kind.opening ++ ' ' :: (name ++ '(' :: rest)) = some f)
    (hf : Helper.recognize? f = some h) : '(' ∉ name := by
  intro hopen
  obtain ⟨-, inner, tail, hinner, hread, htail, hbody⟩ := parseChars?_eq_some (trim_eq_self hname) hparse
  obtain ⟨-, hparameters, hfbody⟩ := Helper.recognize?_eq_some_iff.mp hf
  obtain ⟨front, back, rfl, hfront⟩ := List.eq_append_cons_of_mem hopen
  rw [List.append_assoc, List.cons_append, dropWhile_ne_append hfront] at hinner
  obtain rfl := (List.cons.inj hinner).2
  rw [hparameters] at hread
  by_cases hclose : ')' ∈ back
  · -- the name closes the list as well, and what is left of it begins the body
    obtain ⟨front', back', rfl, hfront'⟩ := List.eq_append_cons_of_mem hclose
    rw [List.append_assoc, List.cons_append, dropWhile_ne_append hfront'] at htail
    obtain rfl := (List.cons.inj htail).2
    have hsolid : ∀ c ∈ back', isBlank c = false := fun c hc => hname c (by simp [hc])
    obtain ⟨text, htext⟩ := h.body_front
    rw [← hfbody, hbody, String.toList_ofList] at htext
    rcases back' with _ | ⟨c, back'⟩
    · rw [List.nil_append, List.dropWhile_cons_of_neg (by decide)] at htext
      exact absurd (List.cons.inj htext).1 (by decide)
    · rw [List.cons_append,
        List.dropWhile_cons_of_neg (by simp [hsolid c List.mem_cons_self])] at htext
      have hsecond := (List.cons.inj htext).2
      rcases back' with _ | ⟨d, back'⟩
      · exact absurd (List.cons.inj hsecond).1 (by decide)
      · obtain rfl := (List.cons.inj hsecond).1
        exact absurd (hsolid ' ' (by simp)) (by decide)
  · -- the list begins in the name, and has the parenthesis that follows it
    refine not_mem_of_readParameters? hread (by decide) (by decide) (.inl rfl) ?_
    rw [List.takeWhile_append_of_pos (ne_of_not_mem hclose), List.takeWhile_cons_of_pos (by decide)]
    exact List.mem_append_right _ List.mem_cons_self

/-- A function is known as a helper just if its fields were written like those of the helper, and none runs
over into the next. -/
theorem recognize?_eq_some_iff_of_parse [IdentifierTable] (hname : ∀ c ∈ name, isBlank c = false)
    (hparse : parseChars? (kind.opening ++ ' ' :: (name ++ '(' :: (list ++ ')' :: ' ' :: body))) = some f) :
    Helper.recognize? f = some h ↔ kind = .plain ∧ '(' ∉ name ∧
      readParameters? list = some h.parameters ∧ body.dropWhile isBlank = h.body.toList := by
  obtain ⟨hkind, inner, tail, hinner, hread, htail, hbody⟩ := parseChars?_eq_some (trim_eq_self hname) hparse
  constructor
  · intro hf
    have hopen := open_not_mem_of_recognized hname hparse hf
    obtain ⟨hplain, hparameters, hfbody⟩ := Helper.recognize?_eq_some_iff.mp hf
    rw [dropWhile_ne_append hopen] at hinner
    obtain rfl := (List.cons.inj hinner).2
    have hclose : ')' ∉ list := by
      intro hclose
      -- a parameter closes the list, and the parenthesis that should is left in the body
      obtain ⟨front, back, rfl, hfront⟩ := List.eq_append_cons_of_mem hclose
      rw [List.append_assoc, List.cons_append, dropWhile_ne_append hfront] at htail
      obtain rfl := (List.cons.inj htail).2
      have hclosed : ¬ isBlank ')' = true := by decide
      refine h.body_close (back.dropWhile isBlank) body ?_
      rw [← hfbody, hbody, String.toList_ofList, List.dropWhile_append]
      split_ifs with hempty
      · rw [List.dropWhile_cons_of_neg hclosed, List.isEmpty_iff.mp hempty]
        rfl
      · rfl
    rw [takeWhile_ne_append hclose] at hread
    rw [dropWhile_ne_append hclose] at htail
    obtain rfl := (List.cons.inj htail).2
    refine ⟨hkind.symm.trans hplain, hopen, hread.trans (congrArg some hparameters), ?_⟩
    rw [← hfbody, hbody, String.toList_ofList, List.dropWhile_cons_of_pos (by decide)]
  · rintro ⟨hplain, hopen, hlist, hblock⟩
    have hclose : ')' ∉ list :=
      not_mem_of_readParameters? hlist (by decide) (by decide) (.inr (.inl rfl))
    rw [dropWhile_ne_append hopen] at hinner
    obtain rfl := (List.cons.inj hinner).2
    rw [takeWhile_ne_append hclose, hlist] at hread
    rw [dropWhile_ne_append hclose] at htail
    obtain rfl := (List.cons.inj htail).2
    refine Helper.recognize?_eq_some_iff.mpr ⟨hkind.trans hplain, (Option.some.inj hread).symm, ?_⟩
    rw [hbody, List.dropWhile_cons_of_pos (by decide), hblock, String.ofList_toList]

end

/-! ## Plain references -/

theorem plain_of_plainName? {reference : Node} (h : plainName? reference ≠ none) :
    Form.of reference = .plain := by
  by_contra hform
  exact h (if_neg hform)

/-- Plain references alone are bound to their own names, in the order of first occurrence. -/
theorem bound_of_plain {body : Node} {source : List Char} {references : List Node} {g : Gathered}
    (hplain : ∀ reference ∈ references, plainName? reference ≠ none)
    (h : references.foldlM (gather body source) {} = .ok g) :
    g.bound = (references.filterMap plainName?).eraseDups.map fun name => (name, name) := by
  refine foldlM_prefix_invariant (P := fun earlier (g : Gathered) => g.bound =
    (earlier.filterMap plainName?).eraseDups.map fun name => (name, name)) ?_ rfl h
  intro reference hreference earlier before after hbefore hok
  obtain ⟨name, hname⟩ := Option.ne_none_iff_exists'.mp (hplain reference hreference)
  have hcanonical := canonicalName?_of_plainName? hname
  have hkeys : name ∈ before.bound.map Prod.fst ↔ name ∈ earlier.filterMap plainName? := by
    rw [hbefore, List.map_map]
    exact (by simp : _ ↔ name ∈ (earlier.filterMap plainName?).eraseDups).trans List.mem_eraseDups
  have hnames : (earlier ++ [reference]).filterMap plainName? =
      earlier.filterMap plainName? ++ [name] := by simp [hname]
  rw [hnames, eraseDups_concat, List.map_append, ← hbefore]
  by_cases hmem : name ∈ before.bound.map Prod.fst
  · obtain ⟨token, hchoose⟩ := chooseToken_of_known hcanonical hmem
    obtain ⟨hbound, -⟩ := gather_bound hok hchoose rfl
    rw [hcanonical, Option.getD_some, if_pos hmem] at hbound
    rw [hbound, if_pos (hkeys.mp hmem), List.map_nil, List.append_nil]
  · obtain ⟨hbound, -⟩ := gather_bound hok (chooseToken_of_plain hname hmem) rfl
    rw [hcanonical, Option.getD_some, if_neg hmem] at hbound
    rw [hbound, if_neg (fun hold => hmem (hkeys.mpr hold))]
    rfl

/-- Plain references alone leave the body as it was written. -/
theorem patches_of_plain {body : Node} {source : List Char} {references : List Node} {g : Gathered}
    (hplain : ∀ reference ∈ references, plainName? reference ≠ none)
    (h : references.foldlM (gather body source) {} = .ok g) : g.patches = [] := by
  refine foldlM_invariant (P := fun g : Gathered => g.patches = []) ?_ rfl h
  intro reference hreference before after hbefore hok
  rcases (gather_cases hok).2 with hsame | ⟨replacement, hreplacement, -⟩
  · exact hsame.trans hbefore
  · rw [plain_of_plainName? (hplain reference hreference)] at hreplacement
    cases hreplacement

/-- A reference that is not plain shows in the parameters: by a digit, or by the first letter of its
word. -/
theorem Binds.exists_mark {references : List Node} {bound : List (String × String)} {issued : Nat}
    (h : Binds references bound issued) {reference : Node} (hmem : reference ∈ references)
    (hplain : plainName? reference = none) :
    ∃ entry ∈ bound, ∃ c ∈ entry.2.toList, c = 'v' ∨ c = 'm' ∨ c.isDigit = true := by
  have hdigit : ∀ i, ∃ c ∈ (freshToken i).toList, c.isDigit = true := by
    intro i
    obtain ⟨c, hc⟩ := List.exists_mem_of_ne_nil _ (Nat.toDigits_ne_nil (b := 10) (n := i))
    refine ⟨c, ?_, Nat.isDigit_of_mem_toDigits (by omega) (by omega) hc⟩
    rw [toList_freshToken]
    exact List.mem_cons_of_mem _ hc
  rcases hname : canonicalName? reference with _ | name
  · have htaker : reference ∈ takers references := by
      have hfilter : reference ∈ references.filter (canonicalName? · = none) := by simp [hmem, hname]
      rw [← filter_takersAfter []] at hfilter
      exact (List.mem_filter.mp hfilter).1
    obtain ⟨i, hi⟩ := List.getElem?_of_mem htaker
    obtain ⟨c, hc, hdigit⟩ := hdigit i
    exact ⟨(freshToken i, freshToken i),
      (h.assigned _).mpr (.inl ⟨i, reference, hi, rfl, by rw [hname]; rfl⟩), c, hc, .inr (.inr hdigit)⟩
  · obtain ⟨⟨_, parameter⟩, hentry, rfl⟩ := List.mem_map.mp
      (h.covered name (List.mem_filterMap.mpr ⟨reference, hmem, hname⟩))
    refine ⟨_, hentry, ?_⟩
    rcases (h.assigned _).mp hentry with ⟨i, -, -, rfl, -⟩ | ⟨heq, -, -⟩
    · obtain ⟨c, hc, hdigit⟩ := hdigit i
      exact ⟨c, hc, .inr (.inr hdigit)⟩
    · obtain ⟨rest, hfront⟩ := canonicalName?_front hplain hname
      rw [heq]
      rcases hfront with hv | hm
      · exact ⟨'v', hv ▸ List.mem_cons_self, .inl rfl⟩
      · exact ⟨'m', hm ▸ List.mem_cons_self, .inr (.inl rfl)⟩

/-- Parameters that are read as those of a helper come from plain references. -/
theorem Binds.plain_of_readParameters? {references : List Node} {bound : List (String × String)}
    {issued : Nat} (h : Binds references bound issued) {helper : Helper}
    (hread : readParameters? (joinWith [','] ((bound.map Prod.snd).map String.toList)) =
      some helper.parameters) : ∀ reference ∈ references, plainName? reference ≠ none := by
  intro reference hmem hplain
  obtain ⟨entry, hentry, c, hc, hmark⟩ := h.exists_mark hmem hplain
  have hordinary : isBlank c = false ∧ c ≠ ',' := by
    rcases hmark with rfl | rfl | hdigit
    · decide
    · decide
    · exact ⟨(digit_ordinary hdigit).1, (digit_ordinary hdigit).2.1⟩
  refine not_mem_of_readParameters? hread hordinary.1 hordinary.2 (.inr (.inr hmark)) ?_
  exact mem_joinWith_of_mem (List.mem_map_of_mem (List.mem_map_of_mem hentry)) hc

/-! ## Imitations -/

/-- A cell that somebody wrote the way a helper is generated. -/
structure Imitates (h : Helper) (p : ParsedCell) : Prop where
  synchronous : p.cell.isAsync = false
  ordinary : p.cell.isGenerator = false
  unopened : '(' ∉ (declaredFunctionName p).toList
  plain : ∀ reference ∈ p.references, plainName? reference ≠ none
  /-- The names that the cell refers to, with commas between them, are read as the helper's
  parameters. -/
  parameters : readParameters? (joinWith [','] ((p.references.filterMap plainName?).eraseDups.map
    String.toList)) = some h.parameters
  /-- The body is a block with the helper's text. -/
  block : ∃ body text, p.body = .ok body ∧ body.kind = .blockStatement ∧ p.text body = .ok text ∧
    text.dropWhile isBlank = h.body.toList

theorem not_isBlank_of_mem_declaredFunctionName {p : ParsedCell} :
    ∀ c ∈ (declaredFunctionName p).toList, isBlank c = false := by
  rw [declaredFunctionName]
  split
  · rw [functionName, String.toList_ofList]
    exact not_isBlank_of_mem_functionNameChars
  · exact List.forall_mem_nil _

/-- Only the text of a block can be that of a helper: an expression is returned from a block of its own,
which breaks the line. -/
theorem dropWhile_bodyText_eq_iff {kind : Kind} {text : List Char} {h : Helper} :
    (bodyText kind text).dropWhile isBlank = h.body.toList ↔
      kind = .blockStatement ∧ text.dropWhile isBlank = h.body.toList := by
  by_cases hkind : kind = .blockStatement
  · rw [bodyText, if_pos hkind]
    exact ⟨fun hbody => ⟨hkind, hbody⟩, fun hbody => hbody.2⟩
  · refine ⟨fun hbody => ?_, fun hbody => absurd hbody.1 hkind⟩
    obtain ⟨rest, hfront⟩ := h.body_front
    rw [bodyText, if_neg hkind, hfront] at hbody
    exact absurd (List.cons.inj (List.cons.inj hbody).2).1 (by decide)

theorem of_eq_plain_iff {isAsync isGenerator : Bool} :
    FunctionKind.of isAsync isGenerator = .plain ↔ isAsync = false ∧ isGenerator = false := by
  cases isAsync <;> cases isGenerator <;> decide

/-- The function of a written cell is known as a helper just if the cell imitates it. -/
theorem recognize?_eq_some_iff_imitates [IdentifierTable] {p : ParsedCell} {e : Extracted}
    {f : FunctionText} (hextract : extract p = .ok e) (hparse : parse? e.code = some f) (h : Helper) :
    Helper.recognize? f = some h ↔ Imitates h p := by
  obtain ⟨body, source, g, hbody, hsource, hg, -, hparameters, hcode⟩ := extract_eq_ok hextract
  rw [hcode, parse?, render, String.toList_ofList, renderChars_eq, intended,
    ← declaredFunctionName_eq] at hparse
  rw [recognize?_eq_some_iff_of_parse not_isBlank_of_mem_declaredFunctionName hparse,
    String.toList_ofList, of_eq_plain_iff, dropWhile_bodyText_eq_iff]
  dsimp only
  -- with plain references alone the parameters are their names, and the body is as it was written
  have hgathered : (∀ reference ∈ p.references, plainName? reference ≠ none) →
      e.parameters = (p.references.filterMap plainName?).eraseDups ∧
        (Patch.applyAll? source g.patches).getD source = source := by
    intro hplain
    rw [hparameters, bound_of_plain hplain hg, patches_of_plain hplain hg, List.map_map]
    exact ⟨List.map_id _, rfl⟩
  constructor
  · rintro ⟨⟨hasync, hgenerator⟩, hopen, hread, hkind, htext⟩
    have hplain := (binds_of_foldlM hg).plain_of_readParameters? (hparameters ▸ hread)
    rw [(hgathered hplain).1] at hread
    rw [(hgathered hplain).2] at htext
    exact ⟨hasync, hgenerator, hopen, hplain, hread, body, source, hbody, hkind, hsource, htext⟩
  · rintro ⟨hasync, hgenerator, hopen, hplain, hread, body', text, hbody', hkind, hsource', htext⟩
    obtain rfl := Except.ok.inj (hbody.symm.trans hbody')
    obtain rfl := Except.ok.inj (hsource.symm.trans hsource')
    rw [(hgathered hplain).1, (hgathered hplain).2]
    exact ⟨⟨hasync, hgenerator⟩, hopen, hread, hkind, htext⟩

/-- All cells of a declaration but the one that was written are helpers. -/
theorem helperCell_of_mem_desugar {declaration : Declaration} {e : Extracted} {cell : ValueCell}
    {rest : List ValueCell} (h : desugar declaration e = cell :: rest) :
    ∀ other ∈ rest, ∃ name references h base, other = helperCell name references h base ∧
      h.parameters.length = references.length := by
  obtain rfl : (desugar declaration e).tail = rest := congrArg List.tail h
  rcases declaration with _ | _ | name | name
  · exact List.forall_mem_nil _
  · exact List.forall_mem_nil _
  · exact List.forall_mem_singleton.mpr ⟨_, _, .viewValue, name, rfl, rfl⟩
  · exact List.forall_mem_cons.mpr ⟨⟨_, _, .mutableWrapper, name, rfl, rfl⟩,
      List.forall_mem_singleton.mpr ⟨_, _, .mutableValue, name, rfl, rfl⟩⟩

/-- The function of a written cell is known as a helper just if the cell is written like one. All other
cells of its declaration are helpers and run natively. The cell itself is refused if its function does not
have one parameter for each reference; otherwise it goes to the host with that function if it is written
like no helper, and runs natively if it is written like one. -/
theorem written_cells_go_to_host_iff [IdentifierTable] (p : ParsedCell) (e : Extracted) (f : FunctionText)
    (hextract : extract p = .ok e) (hparse : parse? e.code = some f) :
    (∀ h, Helper.recognize? f = some h ↔ Imitates h p) ∧
    ∀ declaration, ∃ cell rest, desugar declaration e = cell :: rest ∧
      (∀ other ∈ rest, ∃ name references h base, other = helperCell name references h base ∧
        ('(' ∉ base.toList → ∀ (σ : Type) (instantiate : Instantiate σ) (world : World σ),
          compileCell instantiate other world = (.ok h.native, world))) ∧
      ∀ (σ : Type) (instantiate : Instantiate σ) (world : World σ),
        (f.parameters.length ≠ e.references.length →
          ∃ reason, compileCell instantiate cell world =
            (.error (.compile cell.displayName reason), world)) ∧
        (f.parameters.length = e.references.length →
          ((∀ h, ¬ Imitates h p) → compileCell instantiate cell world = instantiate f cell world) ∧
          ∀ h, Imitates h p → compileCell instantiate cell world = (.ok h.native, world)) := by
  have hknown := recognize?_eq_some_iff_imitates hextract hparse
  refine ⟨hknown, fun declaration => ?_⟩
  obtain ⟨cell, rest, hdesugar, hcode, hreferences⟩ := exists_desugar declaration e
  refine ⟨cell, rest, hdesugar, fun other hother => ?_, fun σ instantiate world => ⟨fun hcount => ?_,
    fun hcount => ⟨fun hnone => ?_, fun h himitates => ?_⟩⟩⟩
  · obtain ⟨name, references, h, base, rfl, hlength⟩ := helperCell_of_mem_desugar hdesugar other hother
    exact ⟨name, references, h, base, rfl, fun hopen σ instantiate world =>
      compileCell_helperCell instantiate h hopen name references hlength world⟩
  · rw [compileCell, hcode, hparse, hreferences]
    exact ⟨_, if_pos hcount⟩
  · have hunknown : Helper.recognize? f = none := by
      rw [Option.eq_none_iff_forall_ne_some]
      exact fun h hh => hnone h ((hknown h).mp hh)
    rw [compileCell_eq (hcode ▸ hparse) (hreferences ▸ hcount), hunknown]
  · rw [compileCell_eq (hcode ▸ hparse) (hreferences ▸ hcount), (hknown h).mpr himitates]

/-- A block with the text of a helper but for a view in place of the parameter: the token that replaces it
gives the cell away. -/
theorem written_cells_go_to_host_iff_view :
    let named (name : String) : Json :=
      .object [("type", .string "Identifier"), ("start", .ofNat 0), ("end", .ofNat 0),
        ("name", .string name)]
    let view : Json := .object [("type", .string "ViewExpression"), ("start", .ofNat 9),
      ("end", .ofNat 17), ("id", named "$")]
    let p : ParsedCell := {
      input := "\x7b return viewof $.generator; \x7d"
      cell := {
        id := none
        body := .object [("type", .string "BlockStatement"), ("start", .ofNat 0), ("end", .ofNat 30),
          ("body", .array [view])]
        references := [view]
        isAsync := false
        isGenerator := false } }
    let f : FunctionText := {
      kind := .plain, name := "", parameters := ["$0"], body := "\x7b return $0.generator; \x7d" }
    ∃ e cell, extract p = .ok e ∧ parse? e.code = some f ∧ desugar .anonymous e = [cell] ∧
      ∀ (σ : Type) (instantiate : Instantiate σ) (world : World σ),
        compileCell instantiate cell world = instantiate f cell world := by
  intro named view p f
  have hdata : (extract p).toOption.map (fun e => (e.references.length, parse? e.code)) =
      some (1, some f) := by decide +kernel
  have hview : ¬ ∀ reference ∈ p.references, plainName? reference ≠ none := by decide +kernel
  rcases he : extract p with error | e
  · rw [he] at hdata
    cases hdata
  rw [he] at hdata
  obtain ⟨hreferences, hf⟩ := Prod.mk.inj (Option.some.inj hdata)
  obtain ⟨-, hcells⟩ := written_cells_go_to_host_iff p e f he hf
  obtain ⟨cell, rest, hdesugar, -, hcompile⟩ := hcells .anonymous
  obtain ⟨rfl, rfl⟩ := List.cons.inj hdesugar
  refine ⟨e, _, rfl, hf, hdesugar, fun σ instantiate world => ?_⟩
  exact ((hcompile σ instantiate world).2 hreferences.symm).1 fun h himitates => hview himitates.plain

/-- A cell that somebody wrote like the current value of a mutable: it never reaches the host. -/
theorem written_cell_runs_natively :
    let plain : Json := .object [("type", .string "Identifier"), ("start", .ofNat 13), ("end", .ofNat 14),
      ("name", .string "$")]
    let p : ParsedCell := {
      input := "a = \x7b return $.generator; \x7d"
      cell := {
        id := some (.object [("type", .string "Identifier"), ("start", .ofNat 0), ("end", .ofNat 1),
          ("name", .string "a")])
        body := .object [("type", .string "BlockStatement"), ("start", .ofNat 4), ("end", .ofNat 27)]
        references := [plain]
        isAsync := false
        isGenerator := false } }
    ∃ e f cell, extract p = .ok e ∧ parse? e.code = some f ∧
      Helper.recognize? f = some .mutableValue ∧ Declaration.of p = .ok (.plain "a") ∧
      desugar (.plain "a") e = [cell] ∧
      ∀ (σ : Type) (instantiate : Instantiate σ) (world : World σ),
        compileCell instantiate cell world = (.ok Body.mutableValue, world) := by
  intro plain p
  have hdata : (extract p).toOption.map (fun e => (e.references.length,
      (parse? e.code).map fun f => (f.parameters.length, Helper.recognize? f))) =
      some (1, some (1, some .mutableValue)) := by decide +kernel
  rcases he : extract p with error | e
  · rw [he] at hdata
    cases hdata
  rw [he] at hdata
  obtain ⟨hreferences, hfunction⟩ := Prod.mk.inj (Option.some.inj hdata)
  obtain ⟨f, hparse, hf⟩ := Option.map_eq_some_iff.mp hfunction
  obtain ⟨hparameters, hknown⟩ := Prod.mk.inj hf
  have hdeclaration : Declaration.of p = .ok (.plain "a") := rfl
  obtain ⟨cell, rest, hdesugar, hcode, hcell⟩ := exists_desugar (.plain "a") e
  obtain rfl : [] = rest := (List.cons.inj hdesugar).2
  refine ⟨e, f, cell, rfl, hparse, hknown, hdeclaration, hdesugar, fun σ instantiate world => ?_⟩
  rw [compileCell_eq (hcode ▸ hparse) (hcell ▸ hparameters.trans hreferences.symm), hknown]
  rfl

end CellGraph.Extraction
