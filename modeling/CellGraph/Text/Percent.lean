/-!
# Percent encoding

A text inside a URL component: letters, digits and the marks `- _ . ! ~ * ' ( )` stand for
themselves, every other byte of the UTF-8 form is written as `%` and two upper-case hexadecimal
digits.
-/

namespace CellGraph.Text

/-- The characters that a URL component holds as they are. -/
def isUnreserved (c : Char) : Bool :=
  c.isAlphanum || ['-', '_', '.', '!', '~', '*', '(', ')'].contains c || c.toNat == 0x27

/-- The upper-case hexadecimal digit of a number below sixteen. -/
def hexDigit (n : Nat) : Char :=
  Char.ofNat (if n < 10 then 0x30 + n else 0x37 + n)

/-- One byte as `%` and two hexadecimal digits. -/
def percentByte (b : UInt8) : List Char :=
  ['%', hexDigit (b.toNat / 16), hexDigit (b.toNat % 16)]

/-- One character of an encoded component. -/
def percentChar (c : Char) : List Char :=
  if isUnreserved c then [c] else (String.utf8EncodeChar c).flatMap percentByte

/-- The text as a URL component. -/
def percentEncode (s : List Char) : List Char :=
  s.flatMap percentChar

end CellGraph.Text
