import Lox.Decimal.Layout

/-!
# Numbers

Every number of the language is a double. This module holds what the language adds to the arithmetic
of doubles: the text of a number, the remainder, which takes the sign of the divisor, and the power.
-/

namespace Lox.Number

open Lox.Decimal

/-- Infinity. -/
def infinity : Float := 1.0 / 0.0

/-- Not a number. -/
def notANumber : Float := 0.0 / 0.0

/-- The number as a literal that reads back: `1.0`, `1e-05`, `inf`. -/
def literalText (x : Float) : String :=
  plainLayout.format x

/-- The text that a program prints: an integral number below 10²¹ in magnitude as that integer (both
zeros as `0`), any other number as a literal. -/
def text (x : Float) : String :=
  match toInt? x with
  | some n => if n.natAbs < Nat.pow 10 21 then toString n else literalText x
  | none => literalText x

/-- The number with the given magnitude and sign. -/
def withSign (negative : Bool) (magnitude : Float) : Float :=
  if negative then -magnitude else magnitude

section Remainder

/-- The remainder of a division that rounds toward zero; it is exact and has the dividend's sign. -/
def truncatedRemainder (x y : Float) : Float :=
  match decode x, decode y with
  | .finite negative m e, .finite _ n f =>
      if n = 0 then
        notANumber
      else
        let unit := min e f
        encode negative ((m * Nat.pow 2 (e - unit).toNat) % (n * Nat.pow 2 (f - unit).toNat)) unit
  | .finite .., .infinite _ => x
  | _, _ => notANumber

/-- The remainder that takes the sign of the divisor, as that of a division that rounds down. -/
def remainder (x y : Float) : Float :=
  let r := truncatedRemainder x y
  if r == 0.0 then withSign (isNegative y) 0.0
  else if isNegative r == isNegative y || r.isNaN then r
  else r + y

end Remainder

section Power

/-- Is the number an odd integer? -/
def isOdd (x : Float) : Bool :=
  match toInt? x with
  | some n => n.natAbs % 2 == 1
  | none => false

/-- Does `base ^ exponent` certainly exceed every double? The magnitude of the base is at least a
power of two, so a product of exponents decides. -/
def certainlyOverflows (base exponent : Float) : Bool :=
  match decode base, toInt? exponent with
  | .finite _ m e, some n =>
      m != 0 && 0 < n && 1024 ≤ (Int.ofNat m.log2 + e) * n
  | _, _ => false

/-- Why two finite numbers have no power: it is too large for a double, or it is not real. -/
inductive PowerError
  | range
  | domain
deriving DecidableEq

/-- The power of a magnitude. -/
def powerOfMagnitude (x exponent : Float) : Float :=
  if x == 1.0 then 1.0 else Float.pow x exponent

/-- The power of two finite numbers: that of the magnitude of the base, negated for a negative base
with an odd exponent. Zero has no negative power and a negative base no fractional one. -/
def finitePower (base exponent : Float) : Except PowerError Float :=
  let magnitude := powerOfMagnitude base.abs exponent
  if base == 0.0 && exponent < 0.0 || base < 0.0 && (toInt? exponent).isNone then
    .error .domain
  else if certainlyOverflows base exponent || magnitude.isInf then
    .error .range
  else
    .ok (withSign (isNegative base && isOdd exponent) magnitude)

/-- The limit of `x ^ exponent` for an infinite exponent and a magnitude `x`. -/
def powerAtInfinity (x : Float) (negative : Bool) : Float :=
  if x == 1.0 then 1.0
  else if (1.0 < x) == negative then 0.0
  else infinity

/-- The power or the reason why there is none: an exponent of zero and a base of one give one even
beside not-a-number, infinite operands give limits, and everything else is `finitePower`. -/
def checkedPower (base exponent : Float) : Except PowerError Float :=
  if exponent == 0.0 || base == 1.0 then
    .ok 1.0
  else
    match decode base, decode exponent with
    | .nan, _ => .ok notANumber
    | _, .nan => .ok notANumber
    | _, .infinite negative => .ok (powerAtInfinity base.abs negative)
    | .infinite negative, .finite below _ _ =>
        .ok (withSign (negative && isOdd exponent) (if below then 0.0 else infinity))
    | .finite .., .finite .. => finitePower base exponent

/-- The power that a program sees. One that is too large is positive infinity, whatever the sign of
the base, and one that is not real is not a number. -/
def power (base exponent : Float) : Float :=
  match checkedPower base exponent with
  | .ok p => p
  | .error .range => infinity
  | .error .domain => notANumber

end Power

end Lox.Number
