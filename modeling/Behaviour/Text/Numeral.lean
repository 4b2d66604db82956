/-!
# Numerals at the head of a text

The number with which a text begins: blanks, a sign and decimal digits are read, and whatever follows is ignored. A
text that begins otherwise counts as zero. The number is held in a machine word: one that does not fit 64 bits becomes
the nearest that does, of which the low 32 bits are kept.
-/

namespace Behaviour.Text

/-- Blank characters: space, tabs, line feed, form feed and carriage return. -/
def isBlank (c : Char) : Bool := c == ' ' || ('\t' ≤ c && c ≤ '\r')

/-- The value of decimal digits read after `n`. -/
def digitsValue (n : Nat) : List Char → Nat
  | [] => n
  | c :: cs => digitsValue (10 * n + (c.toNat - '0'.toNat)) cs

/-- The value of the digits at the head of a text. -/
def leadingNat (cs : List Char) : Nat := digitsValue 0 (cs.takeWhile Char.isDigit)

/-- The number at the head of a text, of any size. -/
def leadingInt (cs : List Char) : Int :=
  match cs.dropWhile isBlank with
  | '-' :: cs => -leadingNat cs
  | '+' :: cs => leadingNat cs
  | cs => leadingNat cs

/-- The nearest number that 64 bits hold. -/
def clamp64 (n : Int) : Int := max Int64.minValue.toInt (min n Int64.maxValue.toInt)

/-- The number at the head of a text, as a 32-bit word. -/
def leadingInt32 (s : String) : Int32 := Int32.ofInt (clamp64 (leadingInt s.toList))

end Behaviour.Text
