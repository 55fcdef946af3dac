import CellGraph.Extraction.Descriptors
import CellGraph.Native
import CellGraph.Proofs.FunctionText
import CellGraph.Proofs.Patches
import CellGraph.Text.Unicode

/-!
# Extracted cells compile

Extraction writes the function of a cell as text, and the compiler reads that text again without knowing
where it came from. What makes the two agree is said of the references gathered so far
(`Gathered.Sound`): every parameter can stand in a parameter list, and every patch has its range in the
body's text and puts no blank at its front. One reference keeps that (`Gathered.Sound.gather`), so all of
them do; the rest is the round trip of the function's text.
-/

namespace CellGraph.Extraction

open Ast Text
open FunctionText (IsParameter Writable)

/-! ## Steps that may fail -/

/-- A sequence of two steps succeeds only if both do. -/
theorem bind_eq_ok {ε α β : Type} {x : Except ε α} {f : α → Except ε β} {b : β}
    (h : x >>= f = .ok b) : ∃ a, x = .ok a ∧ f a = .ok b := by
  rcases x with error | a
  · exact nomatch h
  · exact ⟨a, rfl, h⟩

/-- A sequence of two steps fails only if one of them does. -/
theorem bind_eq_error {ε α β : Type} {x : Except ε α} {f : α → Except ε β} {e : ε}
    (h : x >>= f = .error e) : x = .error e ∨ ∃ a, x = .ok a ∧ f a = .error e := by
  rcases x with error | a
  · exact .inl (congrArg _ (Except.error.inj h))
  · exact .inr ⟨a, rfl, h⟩

/-- What each step keeps, a run of them keeps. -/
theorem foldlM_invariant {ε α β : Type} {f : β → α → Except ε β} {P : β → Prop} {items : List α}
    (hstep : ∀ item ∈ items, ∀ b b', P b → f b item = .ok b' → P b') {b b' : β} (hb : P b)
    (h : items.foldlM f b = .ok b') : P b' := by
  induction items generalizing b with
  | nil =>
      obtain rfl := Except.ok.inj h
      exact hb
  | cons item items ih =>
      rw [List.forall_mem_cons] at hstep
      rw [List.foldlM_cons] at h
      obtain ⟨next, hnext, hrest⟩ := bind_eq_ok h
      exact ih hstep.2 (hstep.1 b next hb hnext) hrest

/-- What each step keeps as the items taken grow by one, a run of them keeps. -/
theorem foldlM_prefix_invariant {ε α β : Type} {f : β → α → Except ε β} {P : List α → β → Prop}
    {items : List α}
    (hstep : ∀ item ∈ items, ∀ earlier b b', P earlier b → f b item = .ok b' → P (earlier ++ [item]) b')
    {b b' : β} (hb : P [] b) (h : items.foldlM f b = .ok b') : P items b' := by
  suffices hfrom : ∀ earlier, P earlier b → P (earlier ++ items) b' from hfrom [] hb
  clear hb
  induction items generalizing b with
  | nil =>
      obtain rfl := Except.ok.inj h
      intro earlier hearlier
      rwa [List.append_nil]
  | cons item items ih =>
      rw [List.forall_mem_cons] at hstep
      rw [List.foldlM_cons] at h
      obtain ⟨next, hnext, hrest⟩ := bind_eq_ok h
      intro earlier hearlier
      have hall := ih hstep.2 hrest _ (hstep.1 earlier b next hearlier hnext)
      rwa [List.append_assoc] at hall

/-! ## Tokens and names -/

/-- A digit is neither a blank nor a character that ends a parameter. -/
theorem digit_ordinary {c : Char} (h : c.isDigit = true) : isBlank c = false ∧ c ≠ ',' ∧ c ≠ ')' := by
  rw [Char.isDigit_iff_toNat] at h
  have hlower : 48 ≤ c.toNat := h.1
  have hupper : c.toNat ≤ 57 := h.2
  refine ⟨?_, ?_, ?_⟩
  · simp only [isBlank, Bool.or_eq_false_iff, Bool.and_eq_false_iff, decide_eq_false_iff_not,
      beq_eq_false_iff_ne]
    omega
  · rintro rfl
    exact absurd hlower (by decide)
  · rintro rfl
    exact absurd hlower (by decide)

/-- The characters of a token. -/
theorem toList_freshToken (k : Nat) : (freshToken k).toList = '$' :: Nat.toDigits 10 k := by
  rw [freshToken, String.toList_append, Nat.toString_eq_ofList_toDigits]
  simp

/-- A token can stand in a parameter list. -/
theorem isParameter_freshToken (k : Nat) : IsParameter (freshToken k) := by
  have hordinary : ∀ c ∈ (freshToken k).toList, isBlank c = false ∧ c ≠ ',' ∧ c ≠ ')' := by
    intro c hc
    rw [toList_freshToken, List.mem_cons] at hc
    rcases hc with rfl | hdigit
    · decide
    · exact digit_ordinary (Nat.isDigit_of_mem_toDigits (by omega) (by omega) hdigit)
  refine ⟨?_, ?_, ?_, ?_⟩
  · rw [toList_freshToken]
    exact List.cons_ne_nil _ _
  · exact trim_eq_self fun c hc => (hordinary c hc).1
  · exact fun hcomma => (hordinary _ hcomma).2.1 rfl
  · exact fun hclose => (hordinary _ hclose).2.2 rfl

/-- The name of a function has no blank. -/
theorem not_isBlank_of_mem_functionNameChars {declared : List Char} :
    ∀ c ∈ functionNameChars declared, isBlank c = false := by
  intro c hc
  obtain ⟨d, -, rfl⟩ := List.mem_map.mp hc
  split
  · decide
  · rename_i hblank
    exact Bool.not_eq_true _ ▸ hblank

/-- The name of a function has a parenthesis only if the declared name has one. -/
theorem open_not_mem_functionNameChars {declared : List Char} (h : '(' ∉ declared) :
    '(' ∉ functionNameChars declared := by
  intro hopen
  rw [functionNameChars] at hopen
  obtain ⟨d, hd, heq⟩ := List.mem_map.mp hopen
  have hd' : d = '(' := by
    split at heq
    · exact absurd heq (by decide)
    · exact heq
  subst hd'
  split at hd
  · rename_i rest hrest
    rcases List.mem_append.mp hd with hfront | hback
    · exact absurd hfront (by decide)
    · exact h (eq_append_of_dropFront? hrest ▸ List.mem_append_right _ hback)
  · exact h hd

/-! ## Ranges in the body -/

/-- The text, which begins at the given offset, has the range. -/
def Covers (offset : Nat) (text : List Char) (span : Span) : Prop :=
  ∃ front middle back, text = front ++ middle ++ back ∧ span.start = offset + byteLength front ∧
    span.stop = offset + byteLength (front ++ middle)

theorem covers_iff {offset : Nat} {text : List Char} {span : Span} :
    Covers offset text span ↔ offset ≤ span.start ∧ offset ≤ span.stop ∧
      (slice? text (span.start - offset) (span.stop - offset)).isSome := by
  constructor
  · rintro ⟨front, middle, back, htext, hstart, hstop⟩
    refine ⟨by omega, by omega, Option.isSome_iff_exists.mpr ⟨middle, slice?_eq_some_iff.mpr ?_⟩⟩
    exact ⟨front, back, htext, by omega, by omega⟩
  · rintro ⟨hstart, hstop, hslice⟩
    obtain ⟨middle, hmiddle⟩ := Option.isSome_iff_exists.mp hslice
    obtain ⟨front, back, htext, hfront, hback⟩ := slice?_eq_some_iff.mp hmiddle
    exact ⟨front, middle, back, htext, by omega, by omega⟩

theorem relative_of_covers {offset : Nat} {text : List Char} {span : Span}
    (h : Covers offset text span) :
    relative offset text span = .ok (span.start - offset, span.stop - offset) :=
  if_pos (covers_iff.mp h)

theorem relative_of_not_covers {offset : Nat} {text : List Char} {span : Span}
    (h : ¬ Covers offset text span) :
    relative offset text span = .error (.tree .occurrenceOutsideBody (some span)) :=
  if_neg fun hrange => h (covers_iff.mpr hrange)

/-- The patch that writes a text in place of a node. -/
def patchFor (offset : Nat) (text : List Char) (node : Node) : Patch where
  start := node.span.start - offset
  stop := node.span.stop - offset
  text := text

/-- The patches are added for all the nodes, or the first node without a text in the body is reported. -/
theorem addPatches_outcome (offset : Nat) (source text : List Char) (nodes : List Node)
    (patches : List Patch) :
    (∃ node ∈ nodes, ¬ Covers offset source node.span ∧
      addPatches offset source text nodes patches =
        .error (.tree .occurrenceOutsideBody (some node.span))) ∨
    (∀ node ∈ nodes, Covers offset source node.span) ∧
      addPatches offset source text nodes patches =
        .ok (Patch.insertAll (nodes.map (patchFor offset text)) patches) := by
  induction nodes generalizing patches with
  | nil => exact .inr ⟨List.forall_mem_nil _, rfl⟩
  | cons node nodes ih =>
      by_cases hcovers : Covers offset source node.span
      · have hstep : addPatches offset source text (node :: nodes) patches =
            addPatches offset source text nodes (Patch.insert (patchFor offset text node) patches) := by
          rw [addPatches, List.foldlM_cons, relative_of_covers hcovers]
          rfl
        rw [hstep]
        rcases ih (Patch.insert (patchFor offset text node) patches) with
          ⟨other, hother, hout, herror⟩ | ⟨hall, hok⟩
        · exact .inl ⟨other, List.mem_cons_of_mem _ hother, hout, herror⟩
        · exact .inr ⟨List.forall_mem_cons.mpr ⟨hcovers, hall⟩, hok⟩
      · refine .inl ⟨node, List.mem_cons_self, hcovers, ?_⟩
        rw [addPatches, List.foldlM_cons, relative_of_not_covers hcovers]
        rfl

/-! ## Gathering -/

/-- What holds of the references gathered so far, for a body with the given text. -/
structure Gathered.Sound (source : List Char) (g : Gathered) : Prop where
  parameters : ∀ entry ∈ g.bound, IsParameter entry.2
  patches : ∀ patch ∈ g.patches, patch.Fits source ∧ Solid patch.text

theorem Gathered.sound_empty (source : List Char) : Gathered.Sound source {} :=
  ⟨fun _ h => absurd h List.not_mem_nil, fun _ h => absurd h List.not_mem_nil⟩

/-- The parameter chosen for a reference can stand in a parameter list, if a plain reference has a name
that can. -/
theorem isParameter_chooseToken {g : Gathered} {reference : Node}
    (hbound : ∀ entry ∈ g.bound, IsParameter entry.2)
    (hplain : Form.of reference = .plain → ∀ name, reference.name? = some name → IsParameter name) :
    IsParameter (chooseToken g reference).1 := by
  rw [chooseToken]
  split
  · rename_i token hlookup
    obtain ⟨canonical, -, hentry⟩ := Option.bind_eq_some_iff.mp hlookup
    obtain ⟨l₁, l₂, heq, -⟩ := List.lookup_eq_some_iff.mp hentry
    exact hbound (canonical, token) (heq ▸ List.mem_append_right _ List.mem_cons_self)
  · split
    · rename_i name hform hname
      exact hplain hform name hname
    · exact isParameter_freshToken g.issued

/-- What replaces an occurrence begins as its parameter does. -/
theorem solid_replacement? {token replacement : String} {form : Form} (htoken : IsParameter token)
    (h : form.replacement? token = some replacement) : Solid replacement.toList := by
  have hsolid : Solid token.toList := solid_of_trim htoken.trimmed htoken.ne_nil
  rcases form with _ | _ | _
  · exact nomatch h
  · obtain rfl := Option.some.inj h
    exact hsolid
  · obtain rfl := Option.some.inj h
    rw [String.toList_append]
    exact hsolid.append _

/-- The patches of all occurrences have their ranges in the body. -/
theorem addPatches_patches {bodyStart : Nat} {source replacement : List Char} {nodes : List Node}
    {patches patches' : List Patch} (hreplacement : Solid replacement)
    (hpatches : ∀ patch ∈ patches, patch.Fits source ∧ Solid patch.text)
    (h : addPatches bodyStart source replacement nodes patches = .ok patches') :
    ∀ patch ∈ patches', patch.Fits source ∧ Solid patch.text := by
  rcases addPatches_outcome bodyStart source replacement nodes patches with
    ⟨node, -, -, herror⟩ | ⟨hcovers, hok⟩
  · rw [herror] at h
    cases h
  · obtain rfl := Except.ok.inj (hok.symm.trans h)
    intro patch hpatch
    rcases Patch.mem_insertAll hpatch with hadded | hold
    · obtain ⟨node, hnode, rfl⟩ := List.mem_map.mp hadded
      exact ⟨(covers_iff.mp (hcovers node hnode)).2.2, hreplacement⟩
    · exact hpatches patch hold

/-- What one reference can change: it binds its canonical name to the chosen parameter or finds it bound,
and it adds the patches of its occurrences or none. -/
theorem gather_cases {body : Node} {source : List Char} {g g' : Gathered} {reference : Node}
    (h : gather body source g reference = .ok g') :
    (g'.bound = g.bound ∨
      ∃ canonical, g'.bound = g.bound ++ [(canonical, (chooseToken g reference).1)]) ∧
    (g'.patches = g.patches ∨
      ∃ replacement, (Form.of reference).replacement? (chooseToken g reference).1 =
          some replacement ∧
        addPatches body.span.start source replacement.toList (occurrences body reference)
          g.patches = .ok g'.patches) := by
  rw [gather] at h
  dsimp only at h
  generalize (chooseToken g reference).1 = token at h ⊢
  have hbound : ∀ canonical : String,
      (if (g.bound.lookup canonical).isSome then g.bound else g.bound ++ [(canonical, token)]) =
          g.bound ∨
        ∃ name, (if (g.bound.lookup canonical).isSome then g.bound
          else g.bound ++ [(canonical, token)]) = g.bound ++ [(name, token)] := by
    intro canonical
    split
    · exact Or.inl rfl
    · exact Or.inr ⟨canonical, rfl⟩
  split at h
  · rename_i replacement hreplacement
    obtain ⟨patches, hpatches, hg'⟩ := bind_eq_ok h
    obtain rfl := Except.ok.inj hg'
    exact ⟨hbound _, Or.inr ⟨replacement, hreplacement, hpatches⟩⟩
  · obtain rfl := Except.ok.inj h
    exact ⟨hbound _, Or.inl rfl⟩

/-- One more reference keeps it so. -/
theorem Gathered.Sound.gather {body : Node} {source : List Char} {g g' : Gathered} {reference : Node}
    (hg : g.Sound source)
    (hplain : Form.of reference = .plain → ∀ name, reference.name? = some name → IsParameter name)
    (h : gather body source g reference = .ok g') : g'.Sound source := by
  have htoken := isParameter_chooseToken hg.parameters hplain
  obtain ⟨hbound, hpatches⟩ := gather_cases h
  refine ⟨?_, ?_⟩
  · intro entry hentry
    rcases hbound with hsame | ⟨canonical, hnew⟩
    · exact hg.parameters entry (hsame ▸ hentry)
    · rw [hnew, List.mem_append, List.mem_singleton] at hentry
      rcases hentry with hold | rfl
      · exact hg.parameters entry hold
      · exact htoken
  · rcases hpatches with hsame | ⟨replacement, hreplacement, hadd⟩
    · rw [hsame]
      exact hg.patches
    · exact addPatches_patches (solid_replacement? htoken hreplacement) hg.patches hadd

/-- So do all of them. -/
theorem Gathered.sound_of_foldlM {body : Node} {source : List Char} {references : List Node}
    {g : Gathered}
    (hplain : ∀ reference ∈ references, Form.of reference = .plain →
      ∀ name, reference.name? = some name → IsParameter name)
    (h : references.foldlM (Extraction.gather body source) {} = .ok g) : g.Sound source := by
  refine foldlM_invariant ?_ (sound_empty source) h
  intro reference hreference before after hbefore hok
  exact hbefore.gather (hplain reference hreference) hok

/-! ## The function of a cell -/

/-- The text of a function's body: a block as it stands, an expression in a block that returns it. -/
def bodyText (kind : Kind) (text : List Char) : List Char :=
  if kind = .blockStatement then text
  else "\x7b\nreturn (".toList ++ text ++ ");\n\x7d".toList

/-- The function that extraction means: what the text of a cell's code is to be read as. -/
def intended (p : ParsedCell) (parameters : List String) (kind : Kind) (text : List Char) :
    FunctionText where
  kind := .of p.cell.isAsync p.cell.isGenerator
  name := (p.id?.bind canonicalName?).elim "" functionName
  parameters := parameters
  body := String.ofList (bodyText kind text)

theorem functionBody_eq (kind : Kind) (text : List Char) :
    functionBody kind text = bodyText kind text := by
  rw [bodyText]
  split
  · rename_i hkind
    rw [hkind]
    rfl
  · rename_i hkind
    rw [functionBody]
    · rfl
    · exact hkind

theorem declaredFunctionName_eq (p : ParsedCell) :
    declaredFunctionName p = (p.id?.bind canonicalName?).elim "" functionName := by
  rw [declaredFunctionName]
  cases p.id?.bind canonicalName? <;> rfl

/-- The function that is written is the one that is meant. -/
theorem intended_eq (p : ParsedCell) (parameters : List String) (kind : Kind) (text : List Char) :
    intended p parameters kind text = {
      kind := .of p.cell.isAsync p.cell.isGenerator
      name := declaredFunctionName p
      parameters
      body := String.ofList (functionBody kind text) } := by
  rw [intended, declaredFunctionName_eq, functionBody_eq]

/-- The parts from which a cell is extracted. -/
theorem extract_eq_ok {p : ParsedCell} {e : Extracted} (h : extract p = .ok e) :
    ∃ body source g, p.body = .ok body ∧ p.text body = .ok source ∧
      p.references.foldlM (gather body source) {} = .ok g ∧
      e.references = g.bound.map Prod.fst ∧ e.parameters = g.bound.map Prod.snd ∧
      e.code = (intended p e.parameters body.kind
        ((Patch.applyAll? source g.patches).getD source)).render := by
  rw [extract] at h
  obtain ⟨body, hbody, h⟩ := bind_eq_ok h
  obtain ⟨source, hsource, h⟩ := bind_eq_ok h
  obtain ⟨g, hg, h⟩ := bind_eq_ok h
  obtain rfl := Except.ok.inj h
  refine ⟨body, source, g, hbody, hsource, hg, rfl, rfl, ?_⟩
  rw [intended_eq]

/-- The body of a function begins with a brace that was written for it, or as the block does. -/
theorem solid_bodyText {kind : Kind} {text : List Char}
    (h : kind = .blockStatement → Solid text) : Solid (bodyText kind text) := by
  rw [bodyText]
  split
  · rename_i hkind
    exact h hkind
  · exact ⟨'\x7b', _, rfl, by decide⟩

/-- The name of a cell's function is trimmed and has no parenthesis. -/
theorem declaredFunctionName_spec {p : ParsedCell}
    (h : ∀ declared, p.id?.bind canonicalName? = some declared → '(' ∉ declared.toList) :
    trim (declaredFunctionName p).toList = (declaredFunctionName p).toList ∧
      '(' ∉ (declaredFunctionName p).toList := by
  rw [declaredFunctionName]
  split
  · rename_i declared hdeclared
    rw [functionName, String.toList_ofList]
    exact ⟨trim_eq_self not_isBlank_of_mem_functionNameChars,
      open_not_mem_functionNameChars (h declared hdeclared)⟩
  · exact ⟨by decide, by decide⟩

/-- The fields of that function stay apart. -/
theorem writable_intended {p : ParsedCell} {parameters : List String} {kind : Kind}
    {text : List Char}
    (hname : ∀ declared, p.id?.bind canonicalName? = some declared → '(' ∉ declared.toList)
    (hparameters : ∀ parameter ∈ parameters, IsParameter parameter)
    (hblock : kind = .blockStatement → Solid text) :
    Writable (intended p parameters kind text) := by
  obtain ⟨htrimmed, hopened⟩ := declaredFunctionName_spec hname
  rw [declaredFunctionName_eq] at htrimmed hopened
  refine ⟨htrimmed, hopened, hparameters, ?_⟩
  rw [intended, String.toList_ofList]
  exact solid_bodyText hblock

/-- The written cell comes first among the cells that a declaration stands for. -/
theorem exists_desugar (declaration : Declaration) (e : Extracted) :
    ∃ cell rest, desugar declaration e = cell :: rest ∧ cell.code = e.code ∧
      cell.references = e.references := by
  rcases declaration with _ | _ | _ | _
  all_goals exact ⟨_, _, rfl, rfl, rfl⟩

/-- A cell whose function has as many parameters as the cell has references goes to a helper or to the
host. -/
theorem compileCell_eq [IdentifierTable] {σ : Type} {cell : ValueCell} {f : FunctionText}
    (hparse : FunctionText.parse? cell.code = some f)
    (hlength : f.parameters.length = cell.references.length) (instantiate : Instantiate σ)
    (world : World σ) :
    compileCell instantiate cell world =
      match Helper.recognize? f with
      | some helper => (.ok helper.native, world)
      | none => instantiate f cell world := by
  rw [compileCell, hparse]
  exact if_neg (not_not_intro hlength)

/-- The code of an extracted cell is read back as the function that extraction meant: the kind of the
cell, the name of what it declares, the parameters of its references, and the body with its occurrences
replaced. There are as many parameters as references, so the compiler takes the cell that was written to
a helper or to the host, and refuses it neither for its text nor for the number of its parameters. -/
theorem extracted_code_compiles [IdentifierTable] (p : ParsedCell) (e : Extracted)
    (hextract : extract p = .ok e)
    (hname : ∀ declared, p.id?.bind canonicalName? = some declared → '(' ∉ declared.toList)
    (hplain : ∀ reference ∈ p.references, Form.of reference = .plain →
      ∀ name, reference.name? = some name → IsParameter name)
    (hblock : ∀ body source, p.body = .ok body → p.text body = .ok source →
      body.kind = .blockStatement → ∃ rest, source = '\x7b' :: rest) :
    ∃ body source g rewritten,
      p.body = .ok body ∧ p.text body = .ok source ∧
      p.references.foldlM (gather body source) {} = .ok g ∧
      Patch.applyAll? source g.patches = some rewritten ∧
      let f := intended p e.parameters body.kind rewritten
      FunctionText.parse? e.code = some f ∧ e.parameters.length = e.references.length ∧
      (body.kind ≠ .importDeclaration → ∀ declaration, Declaration.of p = .ok declaration →
        ∃ cell rest, descriptors p = .ok (.value cell :: rest) ∧
          ∀ (σ : Type) (instantiate : Instantiate σ) (world : World σ),
            compileCell instantiate cell world =
              match Helper.recognize? f with
              | some helper => (.ok helper.native, world)
              | none => instantiate f cell world) := by
  obtain ⟨body, source, g, hbody, hsource, hg, hreferences, hparameters, hcode⟩ :=
    extract_eq_ok hextract
  have hsound : g.Sound source := Gathered.sound_of_foldlM hplain hg
  obtain ⟨rewritten, hrewritten⟩ :=
    Patch.exists_applyAll? fun patch hpatch => (hsound.patches patch hpatch).1
  rw [hrewritten, Option.getD_some] at hcode
  -- the two sides meet in the function that extraction means
  have hwritable : Writable (intended p e.parameters body.kind rewritten) := by
    refine writable_intended hname ?_ fun hkind => ?_
    · intro parameter hparameter
      rw [hparameters] at hparameter
      obtain ⟨entry, hentry, rfl⟩ := List.mem_map.mp hparameter
      exact hsound.parameters entry hentry
    · obtain ⟨rest, hrest⟩ := hblock body source hbody hsource hkind
      exact Patch.solid_of_applyAll? ⟨_, rest, hrest, by decide⟩
        (fun patch hpatch => (hsound.patches patch hpatch).2) hrewritten
  have hparse : FunctionText.parse? e.code = some (intended p e.parameters body.kind rewritten) := by
    rw [hcode]
    exact FunctionText.parse?_render hwritable
  have hlength : e.parameters.length = e.references.length := by
    rw [hparameters, hreferences, List.length_map, List.length_map]
  refine ⟨body, source, g, rewritten, hbody, hsource, hg, hrewritten, hparse, hlength, ?_⟩
  intro hkind declaration hdeclaration
  obtain ⟨cell, rest, hdesugar, hcellCode, hcellReferences⟩ := exists_desugar declaration e
  refine ⟨cell, rest.map .value, ?_, fun σ instantiate world => ?_⟩
  · rw [descriptors, hbody]
    simp only [bind, Except.bind, if_neg hkind, hdeclaration, hextract, hdesugar]
    rfl
  · exact compileCell_eq (hcellCode ▸ hparse) (hcellReferences ▸ hlength) instantiate world

/-- An asynchronous view with a block that reads a mutable, a plain name beyond ASCII and another
view; and an expression without a name that reads the first two of them. -/
theorem extracted_code_compiles_view_and_expression :
    let node (type : String) (start stop : Nat) (others : List (String × Json)) : Json :=
      .object (("type", .string type) :: ("start", .ofNat start) :: ("end", .ofNat stop) :: others)
    let named (name : String) : Json := node "Identifier" 0 0 [("name", .string name)]
    let counter (start : Nat) := node "MutableExpression" start (start + 9) [("id", named "n")]
    let plain (start : Nat) := node "Identifier" start (start + 2) [("name", .string "é")]
    let rate := node "ViewExpression" 40 51 [("id", named "rate")]
    let total : ParsedCell := {
      input := "viewof total = \x7breturn mutable n + é * viewof rate\x7d"
      cell := {
        id := some (node "ViewExpression" 0 12 [("id", named "total")])
        body := node "BlockStatement" 15 52 [("body", .array [counter 23, plain 35, rate])]
        references := [counter 23, plain 35, rate]
        isAsync := true
        isGenerator := false } }
    let sum : ParsedCell := {
      input := "mutable n + é"
      cell := {
        id := none
        body := node "BinaryExpression" 0 14 [("left", counter 0), ("right", plain 12)]
        references := [counter 0, plain 12]
        isAsync := false
        isGenerator := false } }
    let compiles (p : ParsedCell) (references : List String) (f : FunctionText) : Prop :=
      ∃ e cell rest, extract p = .ok e ∧ e.references = references ∧
        FunctionText.parse? e.code = some f ∧ descriptors p = .ok (.value cell :: rest) ∧
        ∀ (σ : Type) (instantiate : Instantiate σ) (world : World σ),
          compileCell instantiate cell world = instantiate f cell world
    compiles total ["mutable n", "é", "viewof rate"] {
      kind := .async
      name := "viewof_total"
      parameters := ["$0", "é", "$1"]
      body := "\x7breturn $0.value + é * $1\x7d" } ∧
    compiles sum ["mutable n", "é"] {
      kind := .plain
      name := ""
      parameters := ["$0", "é"]
      body := "\x7b\nreturn ($0.value + é);\n\x7d" } := by
  intro node named counter plain rate total sum compiles
  -- what the theorem asks of a cell, as facts that can be computed
  have hcompiles (p : ParsedCell) (references : List String) (f : FunctionText)
      (declaration : Declaration) (kind : Kind) (front : Option Char)
      (hdeclaration : Declaration.of p = .ok declaration)
      (hname : ∀ declared ∈ p.id?.bind canonicalName?, '(' ∉ declared.toList)
      (hplain : ∀ reference ∈ p.references, Form.of reference = .plain →
        ∀ name ∈ reference.name?, IsParameter name)
      (hbodyText : (p.body.toOption.bind fun body =>
        (p.text body).toOption.map fun source => (body.kind, source.head?)) = some (kind, front))
      (hkind : kind ≠ .importDeclaration) (hfront : kind = .blockStatement → front = some '\x7b')
      (hfunction : (extract p).toOption.map (fun e => (e.references, FunctionText.parse? e.code)) =
        some (references, some f))
      (hhelper : Helper.recognize? f = none) : compiles p references f := by
    rcases he : extract p with error | e
    · rw [he] at hfunction
      cases hfunction
    rw [he] at hfunction
    obtain ⟨hreferences, hf⟩ := Prod.mk.inj (Option.some.inj hfunction)
    have hbodies : ∀ body source, p.body = .ok body → p.text body = .ok source →
        body.kind = kind ∧ source.head? = front := by
      intro body source hbody hsource
      rw [hbody] at hbodyText
      change (p.text body).toOption.map _ = _ at hbodyText
      rw [hsource] at hbodyText
      exact Prod.mk.inj (Option.some.inj hbodyText)
    obtain ⟨body, source, g, rewritten, hbody, hsource, -, -, hparse, -, hcompile⟩ :=
      extracted_code_compiles p e he hname hplain fun body source hbody hsource hblock => by
        obtain ⟨rfl, rfl⟩ := hbodies body source hbody hsource
        exact List.head?_eq_some_iff.mp (hfront hblock)
    obtain ⟨rfl, -⟩ := hbodies body source hbody hsource
    obtain ⟨cell, rest, hdescriptors, hcell⟩ := hcompile hkind declaration hdeclaration
    refine ⟨e, cell, rest, he, hreferences, hf, hdescriptors, fun σ instantiate world => ?_⟩
    rw [hcell, ← Option.some.inj (hf.symm.trans hparse), hhelper]
  constructor
  · exact hcompiles total _ _ (.view "total") .blockStatement (some '\x7b') rfl (by decide +kernel)
      (by decide +kernel) (by decide +kernel) (by decide) (fun _ => rfl) (by decide +kernel)
      (by decide +kernel)
  · exact hcompiles sum _ _ .anonymous .other (some 'm') rfl (by decide +kernel) (by decide +kernel)
      (by decide +kernel) (by decide) (by decide) (by decide +kernel) (by decide +kernel)

end CellGraph.Extraction
