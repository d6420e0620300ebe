import Lox.Text.Numeral

/-!
# Reading decimal numbers

A decimal number is read as the double nearest to it; one too large for a double is infinity.
-/

namespace Lox.Decimal

/-- The value of a run of decimal digits. -/
def digitsValue (digits : List Char) : Nat :=
  digits.foldl (fun n c => n * 10 + (c.toNat - '0'.toNat)) 0

/-- The number with the digits `whole` before the point and `fraction` after it. -/
def ofDigits (whole fraction : List Char) : Float :=
  Float.ofScientific (digitsValue (whole ++ fraction)) true fraction.length

/-- Above every decimal exponent of a double, and below every one if negated. -/
def exponentBound : Nat := 400

/-- The number `digits * 10 ^ exponent`. A number whose size alone makes it zero or infinite is not
computed. -/
def ofScaled (digits : Nat) (exponent : Int) : Float :=
  if digits = 0 ∨ exponent < -Int.ofNat (exponentBound + digits.log2) then
    0.0
  else if exponent < 0 then
    Float.ofScientific digits true exponent.natAbs
  else if exponent ≤ exponentBound then
    Float.ofScientific digits false exponent.natAbs
  else
    1.0 / 0.0

/-- Split off a sign: is the number negative, and what follows. -/
def splitSign : List Char → Bool × List Char
  | '-' :: rest => (true, rest)
  | '+' :: rest => (false, rest)
  | rest => (false, rest)

/-- The exponent part of a number: nothing, or `e` with a signed integer. -/
def readExponent? : List Char → Option Int
  | [] => some 0
  | mark :: rest =>
      let (negative, digits) := splitSign rest
      if (mark = 'e' ∨ mark = 'E') ∧ digits ≠ [] ∧ digits.all Char.isDigit then
        let value := Int.ofNat (digitsValue digits)
        some (if negative then -value else value)
      else
        none

/-- An unsigned number in positional or scientific form. -/
def readUnsigned? (cs : List Char) : Option Float :=
  let whole := cs.takeWhile Char.isDigit
  let afterWhole := cs.dropWhile Char.isDigit
  let fraction :=
    match afterWhole with
    | '.' :: rest => rest.takeWhile Char.isDigit
    | _ => []
  let afterFraction :=
    match afterWhole with
    | '.' :: rest => rest.dropWhile Char.isDigit
    | rest => rest
  if whole ++ fraction = [] then
    none
  else
    (readExponent? afterFraction).map fun exponent =>
      ofScaled (digitsValue (whole ++ fraction)) (exponent - Int.ofNat fraction.length)

/-- Read a number with an optional sign; infinity and not-a-number are the words `inf`, `infinity`
and `nan` in letters of either case. -/
def read? (text : String) : Option Float := do
  let (negative, cs) := splitSign (← Text.numeral? text)
  let word := cs.map Char.toLower
  let magnitude ←
    if word = "inf".toList ∨ word = "infinity".toList then some (1.0 / 0.0)
    else if word = "nan".toList then some (0.0 / 0.0)
    else readUnsigned? cs
  return if negative then -magnitude else magnitude

end Lox.Decimal
