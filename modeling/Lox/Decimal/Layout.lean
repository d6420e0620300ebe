import Lox.Decimal.Shortest

/-!
# Laying out decimal digits

A `Layout` says how chosen digits are written: which exponents are positional, whether an integral
number keeps a fraction, how an exponent is marked, and the names of the numbers that have no
digits.
-/

namespace Lox.Decimal

/-- The decisions of a written form. -/
structure Layout where
  /-- The least decimal exponent written positionally. -/
  positionalFrom : Int
  /-- The first decimal exponent too great to be written positionally. -/
  positionalBelow : Int
  /-- What follows an integral number in positional form. -/
  integralTail : List Char
  /-- The least number of digits of an exponent. -/
  exponentWidth : Nat
  /-- The texts of infinity and of not-a-number. -/
  infinity : String
  nan : String

/-- Numbers are positional from a ten-thousandth up to ten to the sixteenth, integral ones end in
`.0`, and an exponent has a sign and at least two digits. -/
def plainLayout : Layout where
  positionalFrom := -4
  positionalBelow := 16
  integralTail := ['.', '0']
  exponentWidth := 2
  infinity := "inf"
  nan := "nan"

/-- `n` zeros. -/
def zeros (n : Nat) : List Char :=
  List.replicate n '0'

/-- An exponent with its sign, padded with zeros. -/
def Layout.exponentText (layout : Layout) (exponent : Int) : List Char :=
  let digits := Nat.toDigits 10 exponent.natAbs
  (if exponent < 0 then '-' else '+') :: zeros (layout.exponentWidth - digits.length) ++ digits

/-- Digits in positional form. -/
def Layout.positional (layout : Layout) (d : Digits) : List Char :=
  if d.exponent < 0 then
    ['0', '.'] ++ zeros (-d.exponent - 1).toNat ++ d.digits
  else
    let whole := d.exponent.toNat + 1
    if d.digits.length ≤ whole then
      d.digits ++ zeros (whole - d.digits.length) ++ layout.integralTail
    else
      d.digits.take whole ++ '.' :: d.digits.drop whole

/-- Digits with an exponent. -/
def Layout.scientific (layout : Layout) (d : Digits) : List Char :=
  let mantissa :=
    match d.digits with
    | first :: second :: rest => first :: '.' :: second :: rest
    | digits => digits
  mantissa ++ 'e' :: layout.exponentText d.exponent

/-- The written form of digits. -/
def Layout.write (layout : Layout) (d : Digits) : List Char :=
  if layout.positionalFrom ≤ d.exponent ∧ d.exponent < layout.positionalBelow then
    layout.positional d
  else
    layout.scientific d

/-- The written form of a number: the shortest digits that read back, after the sign. -/
def Layout.format (layout : Layout) (x : Float) : String :=
  match decode x with
  | .nan => layout.nan
  | .infinite negative => (if negative then "-" else "") ++ layout.infinity
  | .finite negative m e =>
      (if negative then "-" else "") ++ String.ofList (layout.write (shortestDigits m e))

end Lox.Decimal
