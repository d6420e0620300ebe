/-!
# Numerals as they are entered

A number in a setting or request may stand between white space, its digits may belong to any
script, and a single underscore may stand between two of them. `numeral?` gives its plain form,
which has ASCII digits and nothing else of the kind.

The white space that is trimmed from both ends of an entered line or of a flag is wider than that between
two tokens of a program: the ASCII blanks and separators, the next-line character and every space, line or
paragraph separator of Unicode. Every script that writes decimal numbers has ten digits at consecutive
code points (general category `Nd`), so a table of the zeros determines the value of each digit.
-/

namespace Lox.Text

section Blanks

/-- Is the character white space? -/
def isBlank (c : Char) : Bool :=
  let code := c.toNat
  (0x09 ≤ code && code ≤ 0x0D) || (0x1C ≤ code && code ≤ 0x20) || code == 0x85 || code == 0xA0 ||
    code == 0x1680 || (0x2000 ≤ code && code ≤ 0x200A) || code == 0x2028 || code == 0x2029 ||
    code == 0x202F || code == 0x205F || code == 0x3000

/-- The characters without those at either end that `unwanted` describes. -/
def trimWhere (unwanted : Char → Bool) (cs : List Char) : List Char :=
  ((cs.dropWhile unwanted).reverse.dropWhile unwanted).reverse

/-- The characters without the white space at either end. -/
def trimChars (cs : List Char) : List Char :=
  trimWhere isBlank cs

/-- The text without the white space at either end. -/
def trim (text : String) : String :=
  String.ofList (trimChars text.toList)

end Blanks

section Digits

/-- The code point of the digit zero of every script beyond ASCII. -/
def zeroDigits : Array Nat := #[
  0x660, 0x6F0, 0x7C0, 0x966, 0x9E6, 0xA66, 0xAE6, 0xB66, 0xBE6, 0xC66, 0xCE6, 0xD66, 0xDE6,
  0xE50, 0xED0, 0xF20, 0x1040, 0x1090, 0x17E0, 0x1810, 0x1946, 0x19D0, 0x1A80, 0x1A90, 0x1B50,
  0x1BB0, 0x1C40, 0x1C50, 0xA620, 0xA8D0, 0xA900, 0xA9D0, 0xA9F0, 0xAA50, 0xABF0, 0xFF10,
  0x104A0, 0x10D30, 0x11066, 0x110F0, 0x11136, 0x111D0, 0x112F0, 0x11450, 0x114D0, 0x11650,
  0x116C0, 0x11730, 0x118E0, 0x11950, 0x11C50, 0x11D50, 0x11DA0, 0x16A60, 0x16AC0, 0x16B50,
  0x1D7CE, 0x1D7D8, 0x1D7E2, 0x1D7EC, 0x1D7F6, 0x1E140, 0x1E2F0, 0x1E950, 0x1FBF0]

/-- The value of a decimal digit of any script, if the character is one. -/
def digitValue? (c : Char) : Option Nat :=
  if c.toNat < 0x80 then
    if c.isDigit then some (c.toNat - '0'.toNat) else none
  else
    (zeroDigits.find? fun first => first ≤ c.toNat && c.toNat < first + 10).map fun first =>
      c.toNat - first

end Digits

section Numerals

/-- The white space that may stand around a number: all but the separators of ASCII. -/
def isNumberBlank (c : Char) : Bool :=
  isBlank c && !(0x1C ≤ c.toNat && c.toNat ≤ 0x1F)

/-- A decimal digit of any script as the ASCII digit of the same value; any other character as it
is. -/
def plainDigit (c : Char) : Char :=
  match digitValue? c with
  | some value => Char.ofNat ('0'.toNat + value)
  | none => c

/-- The characters without the underscores that stand between two digits; there may be no other
one. -/
def dropUnderscores? : List Char → Option (List Char)
  | [] => some []
  | '_' :: _ => none
  | c :: '_' :: d :: rest =>
      if c.isDigit && d.isDigit then (dropUnderscores? (d :: rest)).map (c :: ·) else none
  | c :: rest => (dropUnderscores? rest).map (c :: ·)

/-- The plain form of a number. -/
def numeral? (text : String) : Option (List Char) :=
  dropUnderscores? ((trimWhere isNumberBlank text.toList).map plainDigit)

end Numerals

end Lox.Text
