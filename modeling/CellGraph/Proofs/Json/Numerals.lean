import CellGraph.Json.Printer
import CellGraph.Json.Raw
import Mathlib.Data.List.Infix

/-!
# Numbers as text

A numeral is read from the front of a text. Where the text goes on with nothing that a numeral could go on
with (`Ends`), what follows plays no part (`read?_append`). So it is enough to read the text of a number alone.
The text of an integer is read back as that integer (`reads_natural`, `reads_negative`).
-/

namespace CellGraph.Json

namespace Numeral

variable {s rest : List Char}

/-! ## What follows a numeral -/

/-- The characters of numerals. -/
def isPart (c : Char) : Bool :=
  c.isDigit || c == '.' || c == 'e' || c == 'E' || c == '+' || c == '-'

/-- A text that no numeral in front of it goes on with. -/
def Ends (rest : List Char) : Prop :=
  ∀ c ∈ rest.head?, isPart c = false

theorem ends_nil : Ends [] := nofun

theorem ends_cons {c : Char} (hc : isPart c = false) (rest : List Char) : Ends (c :: rest) := by
  rintro d ⟨⟩
  exact hc

theorem Ends.ne {c d : Char} (h : Ends (c :: rest)) (hd : isPart d = true) : c ≠ d := by
  rintro rfl
  rw [h c rfl] at hd
  cases hd

theorem readDigits_append (hrest : Ends rest) (s : List Char) :
    readDigits (s ++ rest) = ((readDigits s).1, (readDigits s).2 ++ rest) := by
  induction s with
  | nil =>
      cases rest with
      | nil => rfl
      | cons c rest =>
          have hdigit : c.isDigit = false := by
            have hpart := hrest c rfl
            simp only [isPart, Bool.or_eq_false_iff] at hpart
            exact hpart.1.1.1.1.1
          simp [readDigits, hdigit]
  | cons c s ih =>
      by_cases hdigit : c.isDigit = true
      · simp [readDigits, hdigit, ih]
      · simp [readDigits, hdigit]

theorem readDigits?_append (hrest : Ends rest) (s : List Char) :
    readDigits? (s ++ rest) = (readDigits? s).map fun (digits, left) => (digits, left ++ rest) := by
  unfold readDigits?
  rw [readDigits_append hrest]
  rcases readDigits s with ⟨_ | ⟨d, digits⟩, left⟩ <;> rfl

theorem readWhole?_append (hrest : Ends rest) (s : List Char) :
    readWhole? (s ++ rest) = (readWhole? s).map fun (digits, left) => (digits, left ++ rest) := by
  unfold readWhole?
  rw [readDigits?_append hrest]
  rcases readDigits? s with _ | ⟨_ | ⟨_ | d, _ | ⟨e, digits⟩⟩, left⟩ <;> rfl

theorem readFraction?_append (hrest : Ends rest) (s : List Char) :
    readFraction? (s ++ rest) = (readFraction? s).map fun (digits, left) => (digits, left ++ rest) := by
  rcases s with _ | ⟨c, s⟩
  · rcases rest with _ | ⟨c, rest⟩
    · rfl
    · have hpoint := hrest.ne (d := '.') rfl
      simp [readFraction?, hpoint]
  · by_cases hpoint : c = '.'
    · subst hpoint
      simp only [List.cons_append, readFraction?, readDigits?_append hrest, Option.map_map]
      rfl
    · simp [readFraction?, hpoint]

theorem readSign_append (hrest : Ends rest) (s : List Char) :
    readSign (s ++ rest) = ((readSign s).1, (readSign s).2 ++ rest) := by
  rcases s with _ | ⟨c, s⟩
  · rcases rest with _ | ⟨c, rest⟩
    · rfl
    · have hplus := hrest.ne (d := '+') rfl
      have hminus := hrest.ne (d := '-') rfl
      simp [readSign, hplus, hminus]
  · by_cases hplus : c = '+'
    · subst hplus
      rfl
    · by_cases hminus : c = '-'
      · subst hminus
        rfl
      · simp [readSign, hplus, hminus]

theorem readExponent?_append (hrest : Ends rest) (s : List Char) :
    readExponent? (s ++ rest) = (readExponent? s).map fun (exponent, left) => (exponent, left ++ rest) := by
  rcases s with _ | ⟨c, s⟩
  · rcases rest with _ | ⟨c, rest⟩
    · rfl
    · have hsmall := hrest.ne (d := 'e') rfl
      have hlarge := hrest.ne (d := 'E') rfl
      simp [readExponent?, hsmall, hlarge]
  · by_cases hmark : c = 'e' ∨ c = 'E'
    · simp only [List.cons_append, readExponent?, if_pos hmark, readSign_append hrest,
        readDigits?_append hrest, Option.map_map]
      rfl
    · simp [readExponent?, hmark]

/-- Reads a numeral after its sign. -/
def readUnsigned? (negative : Bool) (s : List Char) : Option (Numeral × List Char) := do
  let (whole, s) ← readWhole? s
  let (fraction, s) ← readFraction? s
  let (exponent, s) ← readExponent? s
  return ({ negative, whole, fraction, exponent }, s)

theorem read?_minus (s : List Char) : read? ('-' :: s) = readUnsigned? true s :=
  rfl

theorem read?_of_ne_minus (h : s.head? ≠ some '-') : read? s = readUnsigned? false s := by
  rcases s with _ | ⟨c, s⟩
  · rfl
  · have hminus : c ≠ '-' := fun hc => h (by rw [hc]; rfl)
    simp [read?, readUnsigned?, hminus]

theorem readUnsigned?_append (hrest : Ends rest) (negative : Bool) (s : List Char) :
    readUnsigned? negative (s ++ rest) =
      (readUnsigned? negative s).map fun (n, left) => (n, left ++ rest) := by
  simp only [readUnsigned?, readWhole?_append hrest]
  rcases readWhole? s with _ | ⟨whole, s⟩
  · rfl
  simp only [Option.map_some, Option.bind_eq_bind, Option.bind_some, readFraction?_append hrest]
  rcases readFraction? s with _ | ⟨fraction, s⟩
  · rfl
  simp only [Option.map_some, Option.bind_some, readExponent?_append hrest]
  rcases readExponent? s with _ | ⟨exponent, s⟩ <;> rfl

/-- What follows a numeral plays no part in reading it. -/
theorem read?_append (hrest : Ends rest) (s : List Char) :
    read? (s ++ rest) = (read? s).map fun (n, left) => (n, left ++ rest) := by
  rcases s with _ | ⟨c, s⟩
  · have hminus : rest.head? ≠ some '-' := by
      intro hhead
      cases hrest '-' hhead
    rw [List.nil_append, read?_of_ne_minus hminus, read?_of_ne_minus (by simp)]
    exact readUnsigned?_append hrest false []
  · by_cases hminus : c = '-'
    · subst hminus
      rw [List.cons_append, read?_minus, read?_minus]
      exact readUnsigned?_append hrest true s
    · rw [read?_of_ne_minus (by simpa using hminus), read?_of_ne_minus (by simpa using hminus)]
      exact readUnsigned?_append hrest false (c :: s)

/-! ## Integers -/

/-- The value of digits. -/
def valueOf (digits : List Nat) : Nat :=
  digits.foldl (fun k d => k * 10 + d) 0

/-- The digits of a number. -/
def digitsOf (n : Nat) : List Nat :=
  (Nat.toDigits 10 n).map fun c => c.toNat - 0x30

theorem readDigits_of_digits (hs : ∀ c ∈ s, c.isDigit = true) :
    readDigits s = (s.map fun c => c.toNat - 0x30, []) := by
  induction s with
  | nil => rfl
  | cons c s ih =>
      rw [readDigits, if_pos (hs c List.mem_cons_self), ih fun d hd => hs d (List.mem_cons_of_mem _ hd)]
      rfl

theorem isDigit_of_mem_toDigits {n : Nat} {c : Char} (hc : c ∈ Nat.toDigits 10 n) : c.isDigit = true :=
  Nat.isDigit_of_mem_toDigits (by omega) (by omega) hc

/-- The digits of a number have its value. -/
theorem valueOf_digitsOf (n : Nat) : valueOf (digitsOf n) = n := by
  unfold digitsOf
  induction n using Nat.strong_induction_on with
  | _ n ih =>
      have hdigit : ∀ d < 10, (Nat.digitChar d).toNat - 0x30 = d := by decide
      rw [Nat.toDigits_eq_if (by omega)]
      split
      · next hsmall => simp [valueOf, hdigit n hsmall]
      · next hlarge =>
          have hrest := ih (n / 10) (by omega)
          rw [List.map_append, valueOf, List.foldl_append, ← valueOf, hrest]
          simp only [List.map_cons, List.map_nil, List.foldl_cons, List.foldl_nil,
            hdigit (n % 10) (by omega)]
          omega

/-- Only zero starts with the digit zero. -/
theorem digitsOf_ne_zero_cons {n : Nat} (hn : 0 < n) (digits : List Nat) : digitsOf n ≠ 0 :: digits := by
  unfold digitsOf
  induction n using Nat.strong_induction_on generalizing digits with
  | _ n ih =>
      rw [Nat.toDigits_eq_if (by omega)]
      split
      · next hsmall =>
          have hdigit : ∀ d < 10, 0 < d → (Nat.digitChar d).toNat - 0x30 ≠ 0 := by decide
          intro hcons
          exact hdigit n hsmall hn (List.cons.inj hcons).1
      · next hlarge =>
          rcases hfront : Nat.toDigits 10 (n / 10) with _ | ⟨c, front⟩
          · exact absurd hfront Nat.toDigits_ne_nil
          · intro hcons
            refine ih (n / 10) (by omega) (by omega) (front.map fun c => c.toNat - 0x30) ?_
            have hzero : c.toNat - 0x30 = 0 := (List.cons.inj hcons).1
            rw [hfront, List.map_cons, hzero]

/-- Digits are gathered whole if their value is within bounds. -/
theorem gather_of_lt {significand : Nat} {digits : List Nat}
    (h : digits.foldl (fun k d => k * 10 + d) significand < Nat.pow 2 64) :
    gather significand digits = (digits.foldl (fun k d => k * 10 + d) significand, []) := by
  have hle : ∀ (digits : List Nat) (k : Nat), k ≤ digits.foldl (fun k d => k * 10 + d) k := by
    intro digits
    induction digits with
    | nil => exact fun k => Nat.le_refl k
    | cons d digits ih => exact fun k => le_trans (by omega) (ih (k * 10 + d))
  induction digits generalizing significand with
  | nil => rfl
  | cons d digits ih =>
      rw [gather, if_pos (Nat.lt_of_le_of_lt (hle digits _) h)]
      exact ih h

/-- The text of a natural number is read as the digits before a point. -/
theorem readWhole?_toDigits (n : Nat) : readWhole? (Nat.toDigits 10 n) = some (digitsOf n, []) := by
  have hread : readDigits (Nat.toDigits 10 n) = (digitsOf n, []) :=
    readDigits_of_digits fun c => isDigit_of_mem_toDigits
  rw [readWhole?, readDigits?, hread]
  rcases hdigits : digitsOf n with _ | ⟨_ | d, _ | ⟨e, digits⟩⟩
  · exact absurd (List.map_eq_nil_iff.mp hdigits) Nat.toDigits_ne_nil
  · rfl
  · -- a zero in front of other digits
    rcases Nat.eq_zero_or_pos n with rfl | hpos
    · cases hdigits
    · exact absurd hdigits (digitsOf_ne_zero_cons hpos _)
  · rfl
  · rfl

/-- A natural number as a numeral with a sign. -/
def ofNat (negative : Bool) (n : Nat) : Numeral :=
  { negative, whole := digitsOf n, fraction := none, exponent := none }

theorem readUnsigned?_toDigits (negative : Bool) (n : Nat) :
    readUnsigned? negative (Nat.toDigits 10 n) = some (ofNat negative n, []) := by
  rw [readUnsigned?, readWhole?_toDigits]
  rfl

theorem integer?_ofNat (negative : Bool) {n : Nat} (hn : n < Nat.pow 2 64) :
    (ofNat negative n).integer? =
      if negative then if n = 0 then none else Number.ofInt? (-(n : Int)) else Number.ofInt? n := by
  have hvalue := valueOf_digitsOf n
  have hgather : gather 0 (digitsOf n) = (valueOf (digitsOf n), []) :=
    gather_of_lt (by rw [← valueOf, hvalue]; exact hn)
  rw [hvalue] at hgather
  simp only [integer?, ofNat, hgather, Option.isSome_none, Bool.false_eq_true, or_self, if_false]
  rfl

/-- A text that is a numeral, with nothing after it, for a number. -/
def Reads (text : List Char) (n : Number) : Prop :=
  ∃ numeral, read? text = some (numeral, []) ∧ numeral.value? = some n

theorem reads_natural (n : Fin (Nat.pow 2 64)) : Reads (Number.text (.natural n)) (.natural n) := by
  refine ⟨ofNat false n, ?_, ?_⟩
  · have hminus : (Nat.toDigits 10 n).head? ≠ some '-' := fun hhead => by
      cases isDigit_of_mem_toDigits (List.mem_of_head? hhead)
    rw [Number.text, read?_of_ne_minus hminus, readUnsigned?_toDigits]
  · have hnumber : Number.ofInt? (n.val : Int) = some (.natural n) := dif_pos n.isLt
    rw [value?, integer?_ofNat false n.isLt, if_neg (by simp), hnumber]

theorem reads_negative (n : Fin (Nat.pow 2 63)) : Reads (Number.text (.negative n)) (.negative n) := by
  refine ⟨ofNat true (n.val + 1), ?_, ?_⟩
  · rw [Number.text, read?_minus, readUnsigned?_toDigits]
  · have hbound : n.val + 1 < Nat.pow 2 64 := Nat.lt_of_lt_of_le (Nat.succ_lt_succ n.isLt) (by decide)
    have hnumber : Number.ofInt? (-((n.val + 1 : Nat) : Int)) = some (.negative n) := by
      rw [show -((n.val + 1 : Nat) : Int) = .negSucc n.val by omega]
      exact dif_pos n.isLt
    rw [value?, integer?_ofNat true hbound, if_pos rfl, if_neg (by omega), hnumber]

/-! ## What is left -/

theorem readDigits_suffix (s : List Char) : (readDigits s).2 <:+ s := by
  induction s with
  | nil => exact List.suffix_refl []
  | cons c s ih =>
      rw [readDigits]
      split
      · exact ih.trans (List.suffix_cons c s)
      · exact List.suffix_refl _

theorem readDigits?_suffix {digits : List Nat} (h : readDigits? s = some (digits, rest)) : rest <:+ s := by
  have hsuffix := readDigits_suffix s
  unfold readDigits? at h
  split at h
  · cases h
  · next found _ =>
      rw [Option.some.inj h] at hsuffix
      exact hsuffix

theorem readWhole?_suffix {digits : List Nat} (h : readWhole? s = some (digits, rest)) : rest <:+ s := by
  unfold readWhole? at h
  split at h
  · cases h
  · exact readDigits?_suffix h

theorem readFraction?_suffix {digits : Option (List Nat)} (h : readFraction? s = some (digits, rest)) :
    rest <:+ s := by
  unfold readFraction? at h
  split at h
  · next s =>
      obtain ⟨⟨found, left⟩, hfound, hsame⟩ := Option.map_eq_some_iff.mp h
      cases hsame
      exact (readDigits?_suffix hfound).trans (List.suffix_cons _ s)
  · cases h
    exact List.suffix_refl _

theorem readSign_suffix (s : List Char) : (readSign s).2 <:+ s := by
  unfold readSign
  split
  · exact List.suffix_cons _ _
  · exact List.suffix_cons _ _
  · exact List.suffix_refl _

theorem readExponent?_suffix {exponent : Option (Bool × List Nat)}
    (h : readExponent? s = some (exponent, rest)) : rest <:+ s := by
  unfold readExponent? at h
  split at h
  · cases h
    exact List.suffix_refl _
  · next c s =>
      split at h
      · obtain ⟨⟨found, left⟩, hfound, hsame⟩ := Option.map_eq_some_iff.mp h
        cases hsame
        exact ((readDigits?_suffix hfound).trans (readSign_suffix s)).trans (List.suffix_cons c s)
      · cases h
        exact List.suffix_refl _

/-- What is left of a text after a numeral is its end. -/
theorem read?_suffix {n : Numeral} (h : read? s = some (n, rest)) : rest <:+ s := by
  have hunsigned : ∀ {negative s}, readUnsigned? negative s = some (n, rest) → rest <:+ s := by
    intro negative s h
    simp only [readUnsigned?, Option.bind_eq_bind, Option.bind_eq_some_iff, Prod.exists] at h
    obtain ⟨whole, s₁, hwhole, fraction, s₂, hfraction, exponent, s₃, hexponent, hsame⟩ := h
    cases hsame
    exact ((readExponent?_suffix hexponent).trans (readFraction?_suffix hfraction)).trans
      (readWhole?_suffix hwhole)
  by_cases hminus : s.head? = some '-'
  · obtain ⟨s, rfl⟩ := List.head?_eq_some_iff.mp hminus
    rw [read?_minus] at h
    exact (hunsigned h).trans (List.suffix_cons _ _)
  · rw [read?_of_ne_minus hminus] at h
    exact hunsigned h

/-! ## Floats -/

theorem isPart_of_isDigit {c : Char} (hc : c.isDigit = true) : isPart c = true := by
  simp [isPart, hc]

theorem isPart_of_mem_toDigits {n : Nat} {c : Char} (hc : c ∈ Nat.toDigits 10 n) : isPart c = true :=
  isPart_of_isDigit (isDigit_of_mem_toDigits hc)

/-- The text of a positive decimal has only characters of numerals. -/
theorem isPart_text (d : Decimal.Scientific) : ∀ c ∈ d.text, isPart c = true := by
  have hdigits : ∀ c ∈ Decimal.dropTrailingZeros (Nat.toDigits 10 d.digits), isPart c = true := by
    intro c hc
    rw [Decimal.dropTrailingZeros, List.mem_reverse] at hc
    exact isPart_of_mem_toDigits (List.mem_reverse.mp ((List.dropWhile_sublist _).subset hc))
  have hzeros : ∀ k, ∀ c ∈ List.replicate k '0', isPart c = true := by
    intro k c hc
    rw [List.eq_of_mem_replicate hc]
    rfl
  unfold Decimal.Scientific.text
  generalize Decimal.dropTrailingZeros (Nat.toDigits 10 d.digits) = digits at hdigits
  simp only
  split
  · split
    · next k _ =>
        have hfraction : ∀ c ∈ (if digits.drop (k + 1) = [] then ['0'] else digits.drop (k + 1)),
            isPart c = true := by
          split
          · exact List.forall_mem_singleton.mpr rfl
          · exact fun c hc => hdigits c (List.mem_of_mem_drop hc)
        rw [List.forall_mem_append, List.forall_mem_append, List.forall_mem_cons]
        exact ⟨⟨fun c hc => hdigits c (List.mem_of_mem_take hc), hzeros _⟩, rfl, hfraction⟩
    · rw [List.forall_mem_append, List.forall_mem_cons, List.forall_mem_cons]
      exact ⟨⟨rfl, rfl, hzeros _⟩, hdigits⟩
  · rw [List.forall_mem_append, List.forall_mem_cons]
    refine ⟨?_, rfl, ?_⟩
    · split
      · rw [List.forall_mem_cons] at hdigits ⊢
        exact ⟨hdigits.1, List.forall_mem_cons.mpr ⟨rfl, hdigits.2⟩⟩
      · exact hdigits
    · split <;> exact List.forall_mem_cons.mpr ⟨rfl, fun c => isPart_of_mem_toDigits⟩

/-- So has the text of a float. -/
theorem isPart_binary64Text (x : Binary64) : ∀ c ∈ Decimal.binary64Text x, isPart c = true := by
  have hmagnitude : ∀ c ∈ (if x.rank.val = 0 then ['0', '.', '0'] else (Decimal.shortest x.rank).text),
      isPart c = true := by
    split
    · rw [List.forall_mem_cons, List.forall_mem_cons, List.forall_mem_singleton]
      exact ⟨rfl, rfl, rfl⟩
    · exact isPart_text _
  unfold Decimal.binary64Text
  simp only
  split
  · exact List.forall_mem_cons.mpr ⟨rfl, hmagnitude⟩
  · exact hmagnitude

end Numeral

end CellGraph.Json
