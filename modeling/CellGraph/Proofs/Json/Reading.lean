import CellGraph.Proofs.Json.Numerals

/-!
# Reading what was printed

The text of a value is taken apart into what the value says (`Raw.parse?_pretty`): a character in a string is
escaped so that it is read as itself (`readPieces?_escapeChar`), blanks between the parts of a value are passed
over, and values, items and fields follow each other as in the printer. Of floats it is assumed that their text
is read as the same float (`ReadsBack`).
-/

namespace CellGraph.Json

open Numeral (Ends isPart Reads)

namespace Raw

/-! ## Strings -/

/-- Puts a character in front of the units that are read. -/
def withChar (c : Char) (found : Option (List Piece × List Char)) : Option (List Piece × List Char) :=
  found.map fun (pieces, rest) => (.char c :: pieces, rest)

theorem readPieces?_plain {c : Char} (hsmall : ¬ c.toNat < 0x20) (hquote : c ≠ '"') (hescape : c ≠ '\\')
    (s : List Char) : readPieces? (c :: s) = withChar c (readPieces? s) := by
  rw [readPieces?]
  · simp only [hsmall, hescape, or_self, if_false, withChar]
    cases readPieces? s <;> rfl
  · exact hquote
  · intro _ _ _ _ _ h
    exact absurd h hescape
  · intro _ _ h
    exact absurd h hescape

theorem readPieces?_simple {e c : Char} (he : simpleEscape? e = some c) (hu : e ≠ 'u') (s : List Char) :
    readPieces? ('\\' :: e :: s) = withChar c (readPieces? s) := by
  rw [readPieces?]
  · simp only [he, withChar]
    cases readPieces? s <;> rfl
  · intro _ _ _ _ _ h
    exact absurd h hu

theorem readPieces?_code {n : Nat} (hn : n < 0x20) (s : List Char) :
    readPieces? ('\\' :: 'u' :: '0' :: '0' :: lowerHexDigit (n / 16) :: lowerHexDigit (n % 16) :: s) =
      withChar (Char.ofNat n) (readPieces? s) := by
  have hhex : ∀ d < 16, hexValue? (lowerHexDigit d) = some d := by decide
  have hzero : hexValue? '0' = some 0 := rfl
  have hcode : Piece.ofCode (0 * 4096 + 0 * 256 + n / 16 * 16 + n % 16) = .char (Char.ofNat n) := by
    rw [show 0 * 4096 + 0 * 256 + n / 16 * 16 + n % 16 = n by omega, Piece.ofCode, if_neg (by omega)]
  simp only [readPieces?, hzero, hhex (n / 16) (by omega), hhex (n % 16) (by omega), Option.bind_eq_bind,
    Option.bind_some, hcode, withChar]
  cases readPieces? s <;> rfl

/-- An escaped character is read as that character. -/
theorem readPieces?_escapeChar (c : Char) (s : List Char) :
    readPieces? (escapeChar c ++ s) = withChar c (readPieces? s) := by
  have hchar : ∀ n, c.toNat = n → c = Char.ofNat n := fun n hn => by rw [← hn, Char.ofNat_toNat]
  unfold escapeChar
  split
  case h_8 hquote hescape _ _ _ _ _ =>
    split
    · next hsmall =>
        have hcode := readPieces?_code hsmall s
        rwa [Char.ofNat_toNat] at hcode
    · next hsmall =>
        exact readPieces?_plain hsmall (fun h => hquote (h ▸ rfl)) (fun h => hescape (h ▸ rfl)) s
  all_goals
    next h =>
      rw [hchar _ h]
      exact readPieces?_simple rfl (by decide) s

theorem readPieces?_escaped (s rest : List Char) :
    readPieces? (s.flatMap escapeChar ++ '"' :: rest) = some (s.map .char, rest) := by
  induction s with
  | nil => rfl
  | cons c s ih =>
      rw [List.flatMap_cons, List.append_assoc, readPieces?_escapeChar, ih]
      rfl

theorem joinPieces?_map_char (s : List Char) : joinPieces? (s.map .char) = some s := by
  induction s with
  | nil => rfl
  | cons c s ih => rw [List.map_cons, joinPieces?, ih, Option.map_some]

/-- A string in quotes is read as that string. -/
theorem readString?_escaped (s : String) (rest : List Char) :
    readString? (s.toList.flatMap escapeChar ++ '"' :: rest) = some (some s, rest) := by
  simp only [readString?, readPieces?_escaped, Option.map_some, joinPieces?_map_char, String.ofList_toList]

/-! ## Blanks -/

theorem skipSpace_of_head {c : Char} (hc : isSpace c = false) (s : List Char) :
    skipSpace (c :: s) = c :: s := by
  simp [skipSpace, hc]

theorem skipSpace_space {c : Char} (hc : isSpace c = true) (s : List Char) :
    skipSpace (c :: s) = skipSpace s := by
  simp [skipSpace, hc]

theorem skipSpace_lineStart (level : Nat) (s : List Char) : skipSpace (lineStart level ++ s) = skipSpace s := by
  have hspaces : ∀ k, skipSpace (List.replicate k ' ' ++ s) = skipSpace s := by
    intro k
    induction k with
    | zero => rfl
    | succ k ih => exact (skipSpace_space rfl _).trans ih
  exact (skipSpace_space rfl _).trans (hspaces (2 * level))

/-- Blanks in front of a value are passed over. -/
theorem readValue?_congr {s t : List Char} (h : skipSpace s = skipSpace t) (fuel : Nat) :
    readValue? fuel s = readValue? fuel t := by
  cases fuel with
  | zero => rfl
  | succ fuel => rw [readValue?, readValue?, h]

theorem readItems?_congr {s t : List Char} (h : skipSpace s = skipSpace t) (fuel : Nat) :
    readItems? fuel s = readItems? fuel t := by
  cases fuel with
  | zero => rfl
  | succ fuel => rw [readItems?, readItems?, readValue?_congr h]

theorem readFields?_congr {s t : List Char} (h : skipSpace s = skipSpace t) (fuel : Nat) :
    readFields? fuel s = readFields? fuel t := by
  cases fuel with
  | zero => rfl
  | succ fuel => rw [readFields?, readFields?, h]

theorem skipSpace_skipSpace (s : List Char) : skipSpace (skipSpace s) = skipSpace s := by
  induction s with
  | nil => rfl
  | cons c s ih =>
      cases hc : isSpace c with
      | true => rw [skipSpace_space hc, ih]
      | false => rw [skipSpace_of_head hc, skipSpace_of_head hc]

/-! ## Values -/

theorem isSpace_of_isPart {c : Char} (hc : isPart c = true) : isSpace c = false := by
  rw [Bool.eq_false_iff]
  intro hspace
  simp only [isSpace, Bool.or_eq_true, beq_iff_eq] at hspace
  rcases hspace with ((rfl | rfl) | rfl) | rfl <;> cases hc

/-- A text that starts as a numeral is read as one. -/
theorem readValue?_number {c : Char} (hc : isPart c = true) (s : List Char) (fuel : Nat) :
    readValue? (fuel + 1) (c :: s) =
      (Numeral.read? (c :: s)).map fun (n, rest) => (number n.value?, rest) := by
  have hother : ∀ d, isPart d = false → c ≠ d := by
    rintro d hd rfl
    rw [hc] at hd
    cases hd
  have hscalar : readScalar? (c :: s) =
      (Numeral.read? (c :: s)).map fun (n, rest) => (number n.value?, rest) := by
    simp [readScalar?, hother 'n' rfl, hother 't' rfl, hother 'f' rfl]
  rw [readValue?, skipSpace_of_head (isSpace_of_isPart hc)]
  simp [hother '"' rfl, hother '[' rfl, hother '\x7b' rfl, hscalar]

/-- An array that is not empty. -/
theorem readValue?_array {s : List Char} (hs : (skipSpace s).head? ≠ some ']') (fuel : Nat) :
    readValue? (fuel + 1) ('[' :: s) = (readItems? fuel s).map fun (items, rest) => (array items, rest) := by
  rw [readValue?, skipSpace_of_head rfl]
  simp only
  split
  · next h =>
      rw [h] at hs
      exact absurd rfl hs
  · rw [readItems?_congr (skipSpace_skipSpace s)]

/-- An object that is not empty. -/
theorem readValue?_object {s : List Char} (hs : (skipSpace s).head? ≠ some '\x7d') (fuel : Nat) :
    readValue? (fuel + 1) ('\x7b' :: s) =
      (readFields? fuel s).map fun (fields, rest) => (object fields, rest) := by
  rw [readValue?, skipSpace_of_head rfl]
  simp only
  split
  · next h =>
      rw [h] at hs
      exact absurd rfl hs
  · rw [readFields?_congr (skipSpace_skipSpace s)]

end Raw

/-! ## Printed values -/

mutual

/-- The floats in a value. -/
def floats : Json → List Binary64
  | number (.float x) => [x]
  | array items => floatsOfItems items
  | object fields => floatsOfFields fields
  | _ => []

/-- The floats in the items. -/
def floatsOfItems : List Json → List Binary64
  | [] => []
  | item :: items => floats item ++ floatsOfItems items

/-- The floats in the fields. -/
def floatsOfFields : List (String × Json) → List Binary64
  | [] => []
  | (_, value) :: fields => floats value ++ floatsOfFields fields

end

/-- A float whose text is read as that float. -/
def ReadsBack (x : Binary64) : Prop :=
  parse? (pretty (.number (.float x))) = some (.number (.float x))

/-- The number that a value is. -/
def number? : Json → Option Number
  | number n => some n
  | _ => none

theorem readsBack_iff {x : Binary64} :
    (parse? (pretty (.number (.float x)))).bind number? = some (.float x) ↔ ReadsBack x := by
  unfold ReadsBack
  rcases parse? (pretty (.number (.float x))) with _ | _ | _ | _ | _ | _ | _ <;> simp [number?]

instance (x : Binary64) : Decidable (ReadsBack x) :=
  decidable_of_iff _ readsBack_iff

namespace Raw

/-- What follows a value in an array or an object. -/
theorem ends_lineStart (level : Nat) (s : List Char) : Ends (lineStart level ++ s) :=
  Numeral.ends_cons rfl _

/-- A text that is read as a number starts as a numeral. -/
theorem head_of_read {text left : List Char} {numeral : Numeral}
    (h : Numeral.read? text = some (numeral, left)) : ∃ c s, text = c :: s ∧ isPart c = true := by
  rcases text with _ | ⟨c, s⟩
  · cases h
  · refine ⟨c, s, rfl, ?_⟩
    by_contra hc
    have hnothing := Numeral.read?_append (Numeral.ends_cons (Bool.eq_false_iff.mpr hc) s) []
    rw [List.nil_append, h] at hnothing
    cases hnothing

/-- A float that is read back is read from its text. -/
theorem reads_float {x : Binary64} (h : ReadsBack x) : Reads (Number.text (.float x)) (.float x) := by
  have hparts := Numeral.isPart_binary64Text x
  have hchars : (pretty (.number (.float x))).toList = Decimal.binary64Text x := String.toList_ofList
  obtain ⟨raw, hraw, hvalue⟩ := Option.bind_eq_some_iff.mp h
  unfold parse? at hraw
  rw [hchars] at hraw
  rcases htext : Decimal.binary64Text x with _ | ⟨c, s⟩
  · rw [htext] at hraw
    cases hraw
  · rw [htext] at hparts hraw
    have hread := readValue?_number (hparts c List.mem_cons_self) s
      (2 * (pretty (.number (.float x))).length + 1)
    rw [hread] at hraw
    rcases hnumeral : Numeral.read? (c :: s) with _ | ⟨numeral, left⟩
    · rw [hnumeral] at hraw
      cases hraw
    · simp only [hnumeral, Option.map_some] at hraw
      split at hraw
      · next hleft =>
          cases hraw
          obtain ⟨n, hn, hsame⟩ := Option.map_eq_some_iff.mp hvalue
          cases hsame
          -- what is left has no blanks, and so it is nothing
          have hnothing : left = [] := by
            rcases left with _ | ⟨d, left⟩
            · rfl
            · have hd := hparts d ((Numeral.read?_suffix hnumeral).subset List.mem_cons_self)
              rw [skipSpace_of_head (isSpace_of_isPart hd)] at hleft
              cases hleft
          rw [hnothing, ← htext] at hnumeral
          exact ⟨numeral, hnumeral, hn⟩
      · cases hraw

/-- A number is read from its text. -/
theorem reads_text {n : Number} (h : ∀ x ∈ floats (.number n), ReadsBack x) : Reads n.text n := by
  cases n with
  | natural n => exact Numeral.reads_natural n
  | negative n => exact Numeral.reads_negative n
  | float x => exact reads_float (h x (by simp [floats]))

/-- No value starts with a blank or a closing bracket. -/
theorem head_pretty (j : Json) (h : ∀ x ∈ j.floats, ReadsBack x) (level : Nat) :
    ∃ c s, j.prettyChars level = c :: s ∧ isSpace c = false ∧ c ≠ ']' := by
  cases j with
  | null => exact ⟨_, _, rfl, rfl, by decide⟩
  | bool b => cases b <;> exact ⟨_, _, rfl, rfl, by decide⟩
  | number n =>
      obtain ⟨numeral, hread, -⟩ := reads_text h
      obtain ⟨c, s, htext, hc⟩ := head_of_read hread
      refine ⟨c, s, htext, isSpace_of_isPart hc, ?_⟩
      rintro rfl
      cases hc
  | string s => exact ⟨_, _, rfl, rfl, by decide⟩
  | array items => cases items <;> exact ⟨_, _, rfl, rfl, by decide⟩
  | object fields => cases fields <;> exact ⟨_, _, rfl, rfl, by decide⟩

/-- Nor do items with a closing bracket. -/
theorem head_prettyItems (item : Json) (h : ∀ x ∈ item.floats, ReadsBack x) (items : List Json)
    (level : Nat) (s : List Char) : (skipSpace (prettyItems level (item :: items) ++ s)).head? ≠ some ']' := by
  obtain ⟨c, front, hpretty, hspace, hclose⟩ := head_pretty item h level
  obtain ⟨tail, htail⟩ : ∃ tail, prettyItems level (item :: items) ++ s = lineStart level ++ c :: tail := by
    cases items <;> simp [prettyItems, hpretty]
  rw [htail, skipSpace_lineStart, skipSpace_of_head hspace]
  simpa using hclose

/-- Fields start with a quote. -/
theorem head_prettyFields (field : String × Json) (fields : List (String × Json)) (level : Nat)
    (s : List Char) : (skipSpace (prettyFields level (field :: fields) ++ s)).head? = some '"' := by
  obtain ⟨tail, htail⟩ : ∃ tail,
      prettyFields level (field :: fields) ++ s = lineStart level ++ '"' :: tail := by
    cases fields <;> simp [prettyFields, quoted]
  rw [htail, skipSpace_lineStart, skipSpace_of_head rfl]
  rfl

section

variable {level fuel : Nat} {s t u rest : List Char} {raw : Raw}

/-- The last item ends an array. -/
theorem readItems?_last (hitem : readValue? fuel s = some (raw, t)) (ht : skipSpace t = ']' :: rest) :
    readItems? (fuel + 1) (lineStart level ++ s) = some ([raw], rest) := by
  rw [readItems?, readValue?_congr (skipSpace_lineStart level s), hitem]
  simp only [Option.bind_eq_bind, Option.bind_some, ht]
  rfl

/-- After any other item come a comma and the rest. -/
theorem readItems?_next {items : List Raw} (hitem : readValue? fuel s = some (raw, t))
    (ht : skipSpace t = ',' :: u) (hitems : readItems? fuel u = some (items, rest)) :
    readItems? (fuel + 1) (lineStart level ++ s) = some (raw :: items, rest) := by
  rw [readItems?, readValue?_congr (skipSpace_lineStart level s), hitem]
  simp only [Option.bind_eq_bind, Option.bind_some, ht, hitems]
  rfl

/-- The text of a field without its indentation. -/
theorem quoted_colon (key : String) (s : List Char) :
    quoted key ++ ':' :: ' ' :: s = '"' :: (key.toList.flatMap escapeChar ++ '"' :: ':' :: ' ' :: s) := by
  simp [quoted]

/-- The last field ends an object. -/
theorem readFields?_last (key : String) (hvalue : readValue? fuel s = some (raw, t))
    (ht : skipSpace t = '\x7d' :: rest) :
    readFields? (fuel + 1) (lineStart level ++ (quoted key ++ ':' :: ' ' :: s)) =
      some ([(some key, raw)], rest) := by
  rw [quoted_colon, readFields?, skipSpace_lineStart, skipSpace_of_head rfl]
  simp only [readString?_escaped, Option.bind_eq_bind, Option.bind_some, skipSpace_of_head (c := ':') rfl,
    readValue?_congr (skipSpace_space (c := ' ') rfl s), hvalue, ht]
  rfl

/-- After any other field come a comma and the rest. -/
theorem readFields?_next (key : String) {fields : List (Option String × Raw)}
    (hvalue : readValue? fuel s = some (raw, t)) (ht : skipSpace t = ',' :: u)
    (hfields : readFields? fuel u = some (fields, rest)) :
    readFields? (fuel + 1) (lineStart level ++ (quoted key ++ ':' :: ' ' :: s)) =
      some ((some key, raw) :: fields, rest) := by
  rw [quoted_colon, readFields?, skipSpace_lineStart, skipSpace_of_head rfl]
  simp only [readString?_escaped, Option.bind_eq_bind, Option.bind_some, skipSpace_of_head (c := ':') rfl,
    readValue?_congr (skipSpace_space (c := ' ') rfl s), hvalue, ht, hfields]
  rfl

end

mutual

/-- A value is read from its text. -/
theorem readValue?_pretty : ∀ (j : Json) (level fuel : Nat) (rest : List Char),
    (∀ x ∈ j.floats, ReadsBack x) → Ends rest → (j.prettyChars level).length < fuel →
    readValue? fuel (j.prettyChars level ++ rest) = some (ofJson j, rest)
  | .null, level, fuel + 1, rest, _, _, _ => rfl
  | .bool true, level, fuel + 1, rest, _, _, _ => rfl
  | .bool false, level, fuel + 1, rest, _, _, _ => rfl
  | .number n, level, fuel + 1, rest, hfloats, hrest, _ => by
      obtain ⟨numeral, hread, hvalue⟩ := reads_text hfloats
      obtain ⟨c, s, htext, hc⟩ := head_of_read hread
      have happend := Numeral.read?_append hrest n.text
      rw [hread, htext, List.cons_append] at happend
      have hpretty : prettyChars level (.number n) = c :: s := htext
      rw [hpretty, List.cons_append, readValue?_number hc, happend]
      simp only [Option.map_some, hvalue, List.nil_append, ofJson]
  | .string s, level, fuel + 1, rest, _, _, _ => by
      have hpretty : prettyChars level (.string s) ++ rest =
          '"' :: (s.toList.flatMap escapeChar ++ '"' :: rest) := by
        simp [prettyChars, scalarText, quoted]
      rw [hpretty, readValue?, skipSpace_of_head rfl]
      simp only [readString?_escaped, Option.map_some, ofJson]
  | .array [], level, fuel + 1, rest, _, _, _ => rfl
  | .array (item :: items), level, fuel + 1, rest, hfloats, _, hfuel => by
      have hpretty : prettyChars level (.array (item :: items)) ++ rest =
          '[' :: (prettyItems (level + 1) (item :: items) ++ lineStart level ++ ']' :: rest) := by
        simp [prettyChars]
      have hitems := readItems?_pretty (item :: items) (level + 1) level fuel rest hfloats (by simp)
        (by simp only [prettyChars, List.length_append, List.length_cons] at hfuel; omega)
      have hhead := head_prettyItems item (fun x hx => hfloats x (by simp [floats, floatsOfItems, hx]))
        items (level + 1) (lineStart level ++ ']' :: rest)
      rw [← List.append_assoc] at hhead
      rw [hpretty, readValue?_array hhead, hitems]
      rfl
  | .object [], level, fuel + 1, rest, _, _, _ => rfl
  | .object (field :: fields), level, fuel + 1, rest, hfloats, _, hfuel => by
      have hpretty : prettyChars level (.object (field :: fields)) ++ rest =
          '\x7b' :: (prettyFields (level + 1) (field :: fields) ++ lineStart level ++ '\x7d' :: rest) := by
        simp [prettyChars]
      have hfields := readFields?_pretty (field :: fields) (level + 1) level fuel rest hfloats (by simp)
        (by simp only [prettyChars, List.length_append, List.length_cons] at hfuel; omega)
      have hhead := head_prettyFields field fields (level + 1) (lineStart level ++ '\x7d' :: rest)
      rw [← List.append_assoc] at hhead
      rw [hpretty, readValue?_object (by rw [hhead]; decide), hfields]
      rfl

/-- Items are read from their text. -/
theorem readItems?_pretty : ∀ (items : List Json) (level outer fuel : Nat) (rest : List Char),
    (∀ x ∈ floatsOfItems items, ReadsBack x) → items ≠ [] → (prettyItems level items).length < fuel →
    readItems? fuel (prettyItems level items ++ lineStart outer ++ ']' :: rest) = some (ofItems items, rest)
  | [], _, _, _, _, _, hne, _ => absurd rfl hne
  | [item], level, outer, fuel + 1, rest, hfloats, _, hfuel => by
      have htext : prettyItems level [item] ++ lineStart outer ++ ']' :: rest =
          lineStart level ++ (prettyChars level item ++ (lineStart outer ++ ']' :: rest)) := by
        simp [prettyItems]
      have hitem := readValue?_pretty item level fuel (lineStart outer ++ ']' :: rest)
        (fun x hx => hfloats x (by simp [floatsOfItems, hx])) (ends_lineStart outer _)
        (by simp only [prettyItems, lineStart, List.length_append, List.length_cons] at hfuel; omega)
      rw [htext]
      exact readItems?_last hitem (by rw [skipSpace_lineStart, skipSpace_of_head rfl])
  | item :: next :: items, level, outer, fuel + 1, rest, hfloats, _, hfuel => by
      let after := prettyItems level (next :: items) ++ lineStart outer ++ ']' :: rest
      have htext : prettyItems level (item :: next :: items) ++ lineStart outer ++ ']' :: rest =
          lineStart level ++ (prettyChars level item ++ ',' :: after) := by
        simp [prettyItems, after]
      have hlength : (prettyItems level (item :: next :: items)).length =
          (lineStart level).length + (prettyChars level item).length +
            (prettyItems level (next :: items)).length + 1 := by
        simp only [prettyItems, List.length_append, List.length_cons]
        omega
      have hitem := readValue?_pretty item level fuel (',' :: after)
        (fun x hx => hfloats x (by simp [floatsOfItems, hx])) (Numeral.ends_cons rfl _) (by omega)
      have hitems := readItems?_pretty (next :: items) level outer fuel rest
        (fun x hx => hfloats x (List.mem_append_right _ hx)) (by simp) (by omega)
      rw [htext]
      exact readItems?_next hitem (skipSpace_of_head rfl _) hitems

/-- Fields are read from their text. -/
theorem readFields?_pretty : ∀ (fields : List (String × Json)) (level outer fuel : Nat) (rest : List Char),
    (∀ x ∈ floatsOfFields fields, ReadsBack x) → fields ≠ [] → (prettyFields level fields).length < fuel →
    readFields? fuel (prettyFields level fields ++ lineStart outer ++ '\x7d' :: rest) =
      some (ofFields fields, rest)
  | [], _, _, _, _, _, hne, _ => absurd rfl hne
  | [(key, value)], level, outer, fuel + 1, rest, hfloats, _, hfuel => by
      have htext : prettyFields level [(key, value)] ++ lineStart outer ++ '\x7d' :: rest =
          lineStart level ++ (quoted key ++
            ':' :: ' ' :: (prettyChars level value ++ (lineStart outer ++ '\x7d' :: rest))) := by
        simp [prettyFields]
      have hvalue := readValue?_pretty value level fuel (lineStart outer ++ '\x7d' :: rest)
        (fun x hx => hfloats x (by simp [floatsOfFields, hx])) (ends_lineStart outer _)
        (by simp only [prettyFields, List.length_append, List.length_cons] at hfuel; omega)
      rw [htext]
      exact readFields?_last key hvalue (by rw [skipSpace_lineStart, skipSpace_of_head rfl])
  | (key, value) :: next :: fields, level, outer, fuel + 1, rest, hfloats, _, hfuel => by
      let after := prettyFields level (next :: fields) ++ lineStart outer ++ '\x7d' :: rest
      have htext : prettyFields level ((key, value) :: next :: fields) ++ lineStart outer ++ '\x7d' :: rest =
          lineStart level ++ (quoted key ++ ':' :: ' ' :: (prettyChars level value ++ ',' :: after)) := by
        simp [prettyFields, after]
      have hlength : (prettyFields level ((key, value) :: next :: fields)).length =
          (lineStart level).length + (quoted key).length + (prettyChars level value).length +
            (prettyFields level (next :: fields)).length + 3 := by
        simp only [prettyFields, List.length_append, List.length_cons]
        omega
      have hvalue := readValue?_pretty value level fuel (',' :: after)
        (fun x hx => hfloats x (by simp [floatsOfFields, hx])) (Numeral.ends_cons rfl _) (by omega)
      have hfields := readFields?_pretty (next :: fields) level outer fuel rest
        (fun x hx => hfloats x (List.mem_append_right _ hx)) (by simp) (by omega)
      rw [htext]
      exact readFields?_next key hvalue (skipSpace_of_head rfl _) hfields

end

/-- The text of a value is taken apart into what the value says. -/
theorem parse?_pretty {j : Json} (h : ∀ x ∈ j.floats, ReadsBack x) : parse? j.pretty = some (ofJson j) := by
  have hchars : j.pretty.toList = j.prettyChars 0 := String.toList_ofList
  have hlength : j.pretty.length = (j.prettyChars 0).length := by rw [← String.length_toList, hchars]
  have hread := readValue?_pretty j 0 (2 * j.pretty.length + 2) [] h Numeral.ends_nil (by omega)
  rw [List.append_nil, ← hchars] at hread
  unfold parse?
  simp only [hread]
  rfl

end Raw

end CellGraph.Json
