/-!
# The exact value of a floating-point number

A finite double is a significand times a power of two. `decode` takes a number apart and `encode`
puts one together; everything that must be exact (the text of a number, the remainder, the bound on
powers) is computed on the parts in integer arithmetic.
-/

namespace Lox.Decimal

/-- A floating-point number taken apart: `finite s m e` is `m * 2 ^ e`, negated if `s`. -/
inductive Decoded
  | nan
  | infinite (negative : Bool)
  | finite (negative : Bool) (significand : Nat) (exponent : Int)
deriving DecidableEq

/-- The exponent of the smallest positive number. -/
def leastExponent : Int := -1074

/-- The parts of a number. -/
def decode (x : Float) : Decoded :=
  let bits := x.toBits.toNat
  let negative := bits / Nat.pow 2 63 == 1
  let field := bits / Nat.pow 2 52 % 2048
  let fraction := bits % Nat.pow 2 52
  if field = 2047 then
    if fraction = 0 then .infinite negative else .nan
  else if field = 0 then
    .finite negative fraction leastExponent
  else
    .finite negative (fraction + Nat.pow 2 52) (Int.ofNat field - 1075)

/-- Is the sign bit set? -/
def isNegative (x : Float) : Bool :=
  x.toBits.toNat / Nat.pow 2 63 == 1

/-- The number `significand * 2 ^ exponent`, negated if `negative`, for a value that a double can
represent: the significand is moved to 53 bits, or as far as the least exponent allows. -/
def encode (negative : Bool) (significand : Nat) (exponent : Int) : Float :=
  let sign := if negative then Nat.pow 2 63 else 0
  if significand = 0 then
    Float.ofBits (UInt64.ofNat sign)
  else
    let target := max (exponent + Int.ofNat significand.log2 - 52) leastExponent
    let shift := exponent - target
    let m :=
      if 0 ≤ shift then significand * Nat.pow 2 shift.toNat
      else significand / Nat.pow 2 (-shift).toNat
    if m < Nat.pow 2 52 then
      Float.ofBits (UInt64.ofNat (sign + m))
    else
      Float.ofBits (UInt64.ofNat (sign + (target + 1075).toNat * Nat.pow 2 52 + (m - Nat.pow 2 52)))

/-- The integer that the number is equal to, if there is one. -/
def toInt? (x : Float) : Option Int :=
  match decode x with
  | .finite negative m e =>
      let magnitude? : Option Nat :=
        if 0 ≤ e then
          some (m * Nat.pow 2 e.toNat)
        else if m % Nat.pow 2 (-e).toNat = 0 then
          some (m / Nat.pow 2 (-e).toNat)
        else
          none
      magnitude?.map fun n => if negative then -Int.ofNat n else Int.ofNat n
  | _ => none

end Lox.Decimal
