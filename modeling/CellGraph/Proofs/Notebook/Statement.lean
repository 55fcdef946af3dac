import CellGraph.Notebook.Statement
import CellGraph.Proofs.Text
import Mathlib.Tactic.Cases

/-!
# Reading an import statement back

The statement of an import cell can be read in one way only. Its source is known again because the encoding
of a character is never the front of the encoding of another (`percentChar_append_inj`): a character that
stands for itself is no `%`, and the bytes of the others are those of UTF-8, three characters each.

What stands between braces has no closing brace and a pair has no comma, so the pairs are known again, and a
pair is one to five words: without `as` at most two, with it at least three. A name of two words begins with
`viewof` or `mutable`, which `as` is not; this tells the `as` between the names from one that is a name.
-/

namespace CellGraph

namespace Text

/-! ## Percent encoding -/

theorem hexDigit_injective : ∀ m < 16, ∀ n < 16, hexDigit m = hexDigit n → m = n := by
  decide

theorem percentByte_injective {a b : UInt8} (h : percentByte a = percentByte b) : a = b := by
  simp only [percentByte, List.cons.injEq, true_and, and_true] at h
  have hbound : ∀ c : UInt8, c.toNat / 16 < 16 ∧ c.toNat % 16 < 16 := by
    intro c
    have hc : c.toNat < 256 := c.toNat_lt
    omega
  have hhigh := hexDigit_injective _ (hbound a).1 _ (hbound b).1 h.1
  have hlow := hexDigit_injective _ (hbound a).2 _ (hbound b).2 h.2
  exact UInt8.toNat_inj.mp (by omega)

/-- Of two byte sequences that are written at the front of one text, one begins with the other. -/
theorem prefix_or_prefix_of_percentByte {xs ys : List UInt8} {s t : List Char}
    (h : xs.flatMap percentByte ++ s = ys.flatMap percentByte ++ t) : xs <+: ys ∨ ys <+: xs := by
  induction xs generalizing ys with
  | nil => exact .inl List.nil_prefix
  | cons x xs ih =>
      cases ys with
      | nil => exact .inr List.nil_prefix
      | cons y ys =>
          rw [List.flatMap_cons, List.flatMap_cons, List.append_assoc, List.append_assoc] at h
          obtain ⟨hbyte, hrest⟩ := List.append_inj h rfl
          obtain rfl := percentByte_injective hbyte
          exact (ih hrest).imp (List.prefix_cons_inj x).mpr (List.prefix_cons_inj x).mpr

/-- No character's UTF-8 form is the front of another's. -/
theorem eq_of_utf8EncodeChar_append {c d : Char}
    (h : String.utf8EncodeChar c <+: String.utf8EncodeChar d) : c = d := by
  obtain ⟨rest, hrest⟩ := h
  have hc := ByteArray.utf8DecodeChar?_utf8EncodeChar_append (b := rest.toByteArray) (c := c)
  have hd := ByteArray.utf8DecodeChar?_utf8EncodeChar_append (b := ByteArray.empty) (c := d)
  rw [← List.toByteArray_append, hrest] at hc
  rw [ByteArray.append_empty, hc] at hd
  exact Option.some.inj hd

/-- A character that is written in bytes begins with a percent sign. -/
theorem head?_percentChar {c : Char} (h : isUnreserved c = false) (s : List Char) :
    (percentChar c ++ s).head? = some '%' := by
  obtain ⟨b, bytes, hbytes⟩ := List.exists_cons_of_ne_nil (String.utf8EncodeChar_ne_nil (c := c))
  rw [percentChar, if_neg (by simp [h]), hbytes]
  rfl

/-- The percent sign is written in bytes itself. -/
theorem percentChar_ne_of_isUnreserved {c d : Char} (hc : isUnreserved c = true)
    (hd : isUnreserved d = false) (s t : List Char) : percentChar c ++ s ≠ percentChar d ++ t := by
  intro h
  have hhead := head?_percentChar hd t
  rw [← h, percentChar, if_pos hc] at hhead
  obtain rfl : c = '%' := Option.some.inj hhead
  exact absurd hc (by decide)

/-- The first character of an encoded text, and where its encoding ends. -/
theorem percentChar_append_inj {c d : Char} {s t : List Char}
    (h : percentChar c ++ s = percentChar d ++ t) : c = d ∧ s = t := by
  have hcd : c = d := by
    cases hc : isUnreserved c with
    | true =>
        cases hd : isUnreserved d with
        | true =>
            rw [percentChar, percentChar, if_pos hc, if_pos hd] at h
            exact (List.cons.inj h).1
        | false => exact absurd h (percentChar_ne_of_isUnreserved hc hd s t)
    | false =>
        cases hd : isUnreserved d with
        | true => exact absurd h.symm (percentChar_ne_of_isUnreserved hd hc t s)
        | false =>
            rw [percentChar, percentChar, if_neg (by simp [hc]), if_neg (by simp [hd])] at h
            rcases prefix_or_prefix_of_percentByte h with hfront | hfront
            · exact eq_of_utf8EncodeChar_append hfront
            · exact (eq_of_utf8EncodeChar_append hfront).symm
  subst hcd
  exact ⟨rfl, List.append_cancel_left h⟩

theorem percentEncode_injective {s t : List Char} (h : percentEncode s = percentEncode t) : s = t := by
  have hne : ∀ (c : Char) (rest : List Char), percentEncode (c :: rest) ≠ [] := by
    intro c rest hnil
    cases hc : isUnreserved c with
    | true => simp [percentEncode, percentChar, hc] at hnil
    | false =>
        have hhead := head?_percentChar hc (percentEncode rest)
        rw [percentEncode, List.flatMap_cons] at hnil
        rw [percentEncode, hnil] at hhead
        cases hhead
  induction s generalizing t with
  | nil =>
      cases t with
      | nil => rfl
      | cons d t => exact absurd h.symm (hne d t)
  | cons c s ih =>
      cases t with
      | nil => exact absurd h (hne c s)
      | cons d t =>
          obtain ⟨rfl, hrest⟩ := percentChar_append_inj h
          rw [ih hrest]

end Text

open Text

/-! ## Names -/

/-- The characters of a word: all but blanks, commas and braces. -/
def isWordChar (c : Char) : Bool :=
  !isBlank c && c != ',' && c != '{' && c != '}'

/-- A name that is one word. -/
def IsWord (name : String) : Prop :=
  name ≠ "" ∧ ∀ c ∈ name.toList, isWordChar c = true

/-- A name that a statement can hold: a word, or the view or the mutable of one. -/
inductive Importable : String → Prop
  | word {name : String} : IsWord name → Importable name
  | viewof {name : String} : IsWord name → Importable ("viewof " ++ name)
  | mutable {name : String} : IsWord name → Importable ("mutable " ++ name)

/-- The words of a name. -/
def nameWords (name : String) : List (List Char) :=
  splitOn ' ' name.toList

theorem nameWords_injective {a b : String} (h : nameWords a = nameWords b) : a = b := by
  rw [← String.toList_inj, ← joinWith_splitOn ' ' a.toList, ← joinWith_splitOn ' ' b.toList]
  exact congrArg (joinWith [' ']) h

theorem IsWord.nameWords {name : String} (h : IsWord name) : nameWords name = [name.toList] := by
  refine splitOn_of_not_mem fun hblank => ?_
  exact absurd (h.2 ' ' hblank) (by decide)

/-- A name is one word, or two of which the first is not `as`. -/
theorem Importable.nameWords {name : String} (h : Importable name) :
    (∃ word, nameWords name = [word]) ∨
      ∃ first word, nameWords name = [first, word] ∧ first ≠ ['a', 's'] := by
  have hsplit : ∀ (front : String) {word : String}, IsWord word → ' ' ∉ front.toList →
      CellGraph.nameWords (front ++ " " ++ word) = [front.toList, word.toList] := by
    intro front word hword hfront
    rw [CellGraph.nameWords, String.toList_append, String.toList_append, List.append_assoc]
    exact (splitOn_append_cons hfront _).trans (congrArg _ hword.nameWords)
  cases h with
  | word hword => exact .inl ⟨_, hword.nameWords⟩
  | viewof hword => exact .inr ⟨_, _, hsplit "viewof" hword (by decide), by decide⟩
  | mutable hword => exact .inr ⟨_, _, hsplit "mutable" hword (by decide), by decide⟩

theorem Importable.length_nameWords {name : String} (h : Importable name) :
    (CellGraph.nameWords name).length = 1 ∨ (CellGraph.nameWords name).length = 2 := by
  rcases h.nameWords with ⟨word, hwords⟩ | ⟨first, word, hwords, -⟩
  · exact .inl (by rw [hwords]; rfl)
  · exact .inr (by rw [hwords]; rfl)

theorem Importable.ne_empty {name : String} (h : Importable name) : name.toList ≠ [] := by
  cases h with
  | word hword => exact fun hnil => hword.1 (String.toList_eq_nil_iff.mp hnil)
  | viewof hword => simp
  | mutable hword => simp

/-- Names have none of the marks between them. -/
theorem Importable.not_mem {name : String} (h : Importable name) {c : Char} (hc : c = ',' ∨ c = '}') :
    c ∉ name.toList := by
  have hword : ∀ {word : String}, IsWord word → c ∉ word.toList := by
    intro word hword hmem
    have hchar := hword.2 c hmem
    rcases hc with rfl | rfl
    · exact absurd hchar (by decide)
    · exact absurd hchar (by decide)
  have hfront : ∀ {front word : String}, ',' ∉ front.toList ∧ '}' ∉ front.toList → IsWord word →
      c ∉ (front ++ word).toList := by
    intro front word hfront hw
    rw [String.toList_append]
    refine List.not_mem_append ?_ (hword hw)
    rcases hc with rfl | rfl
    · exact hfront.1
    · exact hfront.2
  cases h with
  | word hw => exact hword hw
  | viewof hw => exact hfront (by decide) hw
  | mutable hw => exact hfront (by decide) hw

/-! ## Pairs -/

/-- A pair of names that a statement can hold. -/
structure Binding.Importable (b : Binding) : Prop where
  name : CellGraph.Importable b.name
  newName : CellGraph.Importable b.newName

namespace Binding

/-- The words of a pair: those of the name alone, or of both names with `as` between them. -/
theorem nameWords_text (b : Binding) :
    nameWords b.text =
      if b.name = b.newName then nameWords b.name
      else nameWords b.name ++ ['a', 's'] :: nameWords b.newName := by
  rw [text]
  split
  · rfl
  · have has : nameWords (b.name ++ " as " ++ b.newName) =
        splitOn ' ' (b.name.toList ++ ' ' :: (['a', 's'] ++ ' ' :: b.newName.toList)) := by
      simp [nameWords]
    rw [has, splitOn_append_separator, splitOn_append_cons (by decide)]
    rfl

/-- Where two names with `as` between them end and begin. -/
theorem nameWords_append_inj {a b c d : String} (ha : CellGraph.Importable a) (hb : CellGraph.Importable b)
    (hc : CellGraph.Importable c) (hd : CellGraph.Importable d)
    (h : nameWords a ++ ['a', 's'] :: nameWords b = nameWords c ++ ['a', 's'] :: nameWords d) :
    a = c ∧ b = d := by
  -- a shorter first name makes the `as` behind it a word of the other name, and its own second name begin so
  have hshorter : ∀ {a b c d : String}, CellGraph.Importable b →
      (nameWords a).length = 1 → (nameWords c).length = 2 →
      nameWords a ++ ['a', 's'] :: nameWords b ≠ nameWords c ++ ['a', 's'] :: nameWords d := by
    intro a b c d hb hone htwo h
    obtain ⟨w, hw⟩ := List.length_eq_one_iff.mp hone
    obtain ⟨v, v', hv⟩ := List.length_eq_two.mp htwo
    rw [hw, hv] at h
    simp only [List.cons_append, List.nil_append, List.cons.injEq] at h
    obtain ⟨-, -, hrest⟩ := h
    rcases hb.nameWords with ⟨u, hu⟩ | ⟨u, u', hu, has⟩
    · rw [hu] at hrest
      have hnil : [] = nameWords d := (List.cons.inj hrest).2
      exact splitOn_ne_nil _ _ hnil.symm
    · rw [hu] at hrest
      exact has (List.cons.inj hrest).1
  have hlength : (nameWords a).length = (nameWords c).length := by
    rcases ha.length_nameWords with ha1 | ha2 <;> rcases hc.length_nameWords with hc1 | hc2
    · rw [ha1, hc1]
    · exact absurd h (hshorter hb ha1 hc2)
    · exact absurd h.symm (hshorter hd hc1 ha2)
    · rw [ha2, hc2]
  obtain ⟨hfirst, hsecond⟩ := List.append_inj h hlength
  exact ⟨nameWords_injective hfirst, nameWords_injective (List.cons.inj hsecond).2⟩

theorem text_injective {a b : Binding} (ha : a.Importable) (hb : b.Importable) (h : a.text = b.text) :
    a = b := by
  have hwords : nameWords a.text = nameWords b.text := congrArg nameWords h
  have hshort := congrArg List.length hwords
  rw [nameWords_text, nameWords_text] at hwords hshort
  have ha1 := ha.name.length_nameWords
  have hb1 := hb.name.length_nameWords
  have ha2 := ha.newName.length_nameWords
  have hb2 := hb.newName.length_nameWords
  cases a with | mk aname anew
  cases b with | mk bname bnew
  dsimp only at *
  by_cases hsame : aname = anew
  · by_cases hsame' : bname = bnew
    · rw [if_pos hsame, if_pos hsame'] at hwords
      rw [← hsame, ← hsame', nameWords_injective hwords]
    · -- at most two words against at least three
      rw [if_pos hsame, if_neg hsame', List.length_append, List.length_cons] at hshort
      omega
  · by_cases hsame' : bname = bnew
    · rw [if_neg hsame, if_pos hsame', List.length_append, List.length_cons] at hshort
      omega
    · rw [if_neg hsame, if_neg hsame'] at hwords
      obtain ⟨rfl, rfl⟩ := nameWords_append_inj ha.name ha.newName hb.name hb.newName hwords
      rfl

theorem Importable.text_ne_nil {b : Binding} (h : b.Importable) : b.text.toList ≠ [] := by
  rw [text]
  split
  · exact h.name.ne_empty
  · simp

theorem Importable.not_mem_text {b : Binding} (h : b.Importable) {c : Char} (hc : c = ',' ∨ c = '}') :
    c ∉ b.text.toList := by
  rw [text]
  split
  · exact h.name.not_mem hc
  · rw [String.toList_append, String.toList_append]
    refine List.not_mem_append (List.not_mem_append (h.name.not_mem hc) ?_) (h.newName.not_mem hc)
    rcases hc with rfl | rfl <;> decide

end Binding

/-! ## Statements -/

/-- A cell whose names a statement can hold; the source is any text. -/
structure ImportCell.Importable (cell : ImportCell) : Prop where
  specifiers : ∀ b ∈ cell.specifiers, b.Importable
  injections : ∀ b ∈ cell.injections, b.Importable

namespace ImportCell

theorem eq_of_texts_eq {as bs : List Binding} (ha : ∀ b ∈ as, b.Importable) (hb : ∀ b ∈ bs, b.Importable)
    (h : (as.map fun b => b.text.toList) = bs.map fun b => b.text.toList) : as = bs := by
  induction as generalizing bs with
  | nil => exact (List.map_eq_nil_iff.mp h.symm).symm
  | cons a as ih =>
      cases bs with
      | nil => cases h
      | cons b bs =>
          obtain ⟨ha, has⟩ := List.forall_mem_cons.mp ha
          obtain ⟨hb, hbs⟩ := List.forall_mem_cons.mp hb
          obtain ⟨htext, htexts⟩ := List.cons.inj h
          rw [Binding.text_injective ha hb (String.toList_inj.mp htext), ih has hbs htexts]

/-- Pairs between braces end at the first closing brace, and are known again. -/
theorem braced_append_inj {as bs : List Binding} {s t : List Char} (ha : ∀ b ∈ as, b.Importable)
    (hb : ∀ b ∈ bs, b.Importable) (h : braced as ++ s = braced bs ++ t) : as = bs ∧ s = t := by
  have hparts : ∀ {bs : List Binding}, (∀ b ∈ bs, b.Importable) →
      ∀ part ∈ bs.map fun b => b.text.toList, part ≠ [] ∧ ',' ∉ part := by
    intro bs hbs
    exact List.forall_mem_map.mpr fun b hb => ⟨(hbs b hb).text_ne_nil, (hbs b hb).not_mem_text (.inl rfl)⟩
  have hclosed : ∀ {bs : List Binding}, (∀ b ∈ bs, b.Importable) →
      '}' ∉ joinWith [',', ' '] (bs.map fun b => b.text.toList) ++ [' '] := by
    intro bs hbs hmem
    rcases List.mem_append.mp hmem with hmem | hmem
    · rcases mem_joinWith hmem with hmem | ⟨part, hpart, hmem⟩
      · exact absurd hmem (by decide)
      · obtain ⟨b, hb, rfl⟩ := List.mem_map.mp hpart
        exact (hbs b hb).not_mem_text (.inr rfl) hmem
    · exact absurd hmem (by decide)
  have hopen : ∀ (bs : List Binding) (s : List Char), braced bs ++ s =
      '{' :: ' ' :: ((joinWith [',', ' '] (bs.map fun b => b.text.toList) ++ [' ']) ++ '}' :: s) := by
    intro bs s
    simp [braced]
  rw [hopen, hopen] at h
  obtain ⟨hjoin, hrest⟩ := append_cons_unique (hclosed ha) (hclosed hb) (List.cons.inj (List.cons.inj h).2).2
  have htexts := joinWith_cons_injective (by decide) (hparts ha) (hparts hb) (List.append_cancel_right hjoin)
  exact ⟨eq_of_texts_eq ha hb htexts, hrest⟩

/-- A list of pairs in a statement, with a word in front of it. An empty list is left out. -/
def clause (front : List Char) (bindings : List Binding) : List Char :=
  if bindings = [] then [] else front ++ braced bindings ++ [' ']

/-- The end of a statement. -/
def sourceClause (source : String) : List Char :=
  "from ".toList ++ '"' :: percentEncode source.toList ++ ['"']

/-- A statement in the order in which it is read. -/
theorem statementChars_eq (cell : ImportCell) :
    cell.statementChars =
      "import ".toList ++
        (clause [] cell.specifiers ++
          (clause "with ".toList cell.injections ++ sourceClause cell.source)) := by
  unfold statementChars clause sourceClause
  split <;> split <;> simp [joinWith]

theorem sourceClause_injective {a b : String} (h : sourceClause a = sourceClause b) : a = b := by
  have hquoted := List.append_cancel_left (List.append_cancel_right h)
  exact String.toList_inj.mp (percentEncode_injective (List.cons.inj hquoted).2)

theorem head?_sourceClause (source : String) : (sourceClause source).head? = some 'f' :=
  rfl

/-- Whatever follows the first list of pairs begins with a letter. -/
theorem head?_injections (bindings : List Binding) (source : String) :
    (clause "with ".toList bindings ++ sourceClause source).head? ≠ some '{' := by
  rw [clause]
  split
  · rw [List.nil_append, head?_sourceClause]
    decide
  · rw [List.append_assoc, List.append_assoc]
    exact fun h => absurd (Option.some.inj h : 'w' = '{') (by decide)

/-- A clause that opens with a character which does not open what follows: whether it is there, its pairs,
and where it ends. -/
theorem clause_append_inj (first : Char) {front s t : List Char} {as bs : List Binding}
    (hfront : (front ++ ['{']).head? = some first) (hs : s.head? ≠ some first) (ht : t.head? ≠ some first)
    (ha : ∀ b ∈ as, b.Importable) (hb : ∀ b ∈ bs, b.Importable)
    (h : clause front as ++ s = clause front bs ++ t) : as = bs ∧ s = t := by
  have hhead : ∀ {bs : List Binding}, bs ≠ [] → ∀ t, (clause front bs ++ t).head? = some first := by
    intro bs hne t
    rw [clause, if_neg hne, ← hfront]
    cases front <;> rfl
  by_cases has : as = []
  · by_cases hbs : bs = []
    · subst has hbs
      exact ⟨rfl, h⟩
    · rw [clause, if_pos has, List.nil_append] at h
      exact absurd (h ▸ hhead hbs t) hs
  · by_cases hbs : bs = []
    · rw [clause, clause, if_pos hbs, List.nil_append, ← clause] at h
      exact absurd (h ▸ hhead has s) ht
    · rw [clause, clause, if_neg has, if_neg hbs] at h
      simp only [List.append_assoc] at h
      obtain ⟨hlists, hrest⟩ := braced_append_inj ha hb (List.append_cancel_left h)
      exact ⟨hlists, List.append_cancel_left hrest⟩

/-- The statement tells the import: the source, and both lists of pairs in order. -/
theorem statement_determines_import {a b : ImportCell} (ha : a.Importable) (hb : b.Importable) :
    a.statement = b.statement ↔ a = b := by
  refine ⟨fun h => ?_, congrArg statement⟩
  have hchars : a.statementChars = b.statementChars := String.ofList_injective h
  rw [statementChars_eq, statementChars_eq] at hchars
  obtain ⟨hspecifiers, hrest⟩ := clause_append_inj '{' rfl (head?_injections _ _) (head?_injections _ _)
    ha.specifiers hb.specifiers (List.append_cancel_left hchars)
  obtain ⟨hinjections, hsource⟩ := clause_append_inj 'w' rfl (by simp [head?_sourceClause])
    (by simp [head?_sourceClause]) ha.injections hb.injections hrest
  cases a with | mk source specifiers injections
  cases b with | mk source' specifiers' injections'
  dsimp only at hspecifiers hinjections hsource
  rw [hspecifiers, hinjections, sourceClause_injective hsource]

/-- Two imports of names that are words of the statement themselves. Their statements differ by one `as`; the
source holds what would end a statement if it stood there as it is. -/
theorem statement_determines_import_of_keywords :
    let source := "@o/☃\" with as from \"d/1"
    let a : ImportCell := ⟨source, [⟨"mutable as", "as"⟩, ⟨"from", "from"⟩], []⟩
    let b : ImportCell := ⟨source, [⟨"mutable", "as"⟩, ⟨"from", "from"⟩], []⟩
    a.Importable ∧ b.Importable ∧ a.statement ≠ b.statement := by
  have has : IsWord "as" := ⟨by decide, List.all_eq_true.mp (by decide)⟩
  have hfrom : IsWord "from" := ⟨by decide, List.all_eq_true.mp (by decide)⟩
  have hmutable : IsWord "mutable" := ⟨by decide, List.all_eq_true.mp (by decide)⟩
  have hpair : Binding.Importable ⟨"from", "from"⟩ := ⟨.word hfrom, .word hfrom⟩
  have ha : ∀ b ∈ [⟨"mutable as", "as"⟩, ⟨"from", "from"⟩], Binding.Importable b :=
    List.forall_mem_cons.mpr ⟨⟨.mutable has, .word has⟩, List.forall_mem_singleton.mpr hpair⟩
  have hb : ∀ b ∈ [⟨"mutable", "as"⟩, ⟨"from", "from"⟩], Binding.Importable b :=
    List.forall_mem_cons.mpr ⟨⟨.word hmutable, .word has⟩, List.forall_mem_singleton.mpr hpair⟩
  intro source a b
  have hcells : a.Importable ∧ b.Importable := ⟨⟨ha, List.forall_mem_nil _⟩, ⟨hb, List.forall_mem_nil _⟩⟩
  refine ⟨hcells.1, hcells.2, fun h => ?_⟩
  exact absurd ((statement_determines_import hcells.1 hcells.2).mp h) (by decide)

end ImportCell

end CellGraph
