import Lox.Decimal.Binary

/-!
# The fewest digits that read back

The decimal digits of a positive number `m * 2 ^ e` are chosen in exact arithmetic: for one, two, …
seventeen digits the two neighbours of the value on that decimal grid are tested, and the first grid
with a neighbour inside the rounding interval of the number decides. Of two such neighbours the
nearer is taken, and of two equally near the one with an even last digit.
-/

namespace Lox.Decimal

/-- A non-negative rational number. -/
structure Ratio where
  num : Nat
  den : Nat

namespace Ratio

/-- Is the first number at most the second? -/
def le (a b : Ratio) : Bool :=
  a.num * b.den ≤ b.num * a.den

/-- Is the first number less than the second? -/
def lt (a b : Ratio) : Bool :=
  a.num * b.den < b.num * a.den

/-- `n * base ^ k`. -/
def scale (n base : Nat) (k : Int) : Ratio :=
  if 0 ≤ k then ⟨n * Nat.pow base k.toNat, 1⟩ else ⟨n, Nat.pow base (-k).toNat⟩

/-- The integer part of `r / 10 ^ k`. -/
def floorAt (r : Ratio) (k : Int) : Nat :=
  if 0 ≤ k then r.num / (r.den * Nat.pow 10 k.toNat) else r.num * Nat.pow 10 (-k).toNat / r.den

end Ratio

/-- The rounding interval of `m * 2 ^ e`: its ends, and whether they belong to it. Below a power of
two the neighbouring number is only half as far away. -/
structure Interval where
  low : Ratio
  high : Ratio
  closed : Bool

/-- The interval of the real numbers that round to `m * 2 ^ e`. -/
def roundingInterval (m : Nat) (e : Int) : Interval where
  low := Ratio.scale (4 * m - if m = Nat.pow 2 52 ∧ leastExponent < e then 1 else 2) 2 (e - 2)
  high := Ratio.scale (4 * m + 2) 2 (e - 2)
  closed := m % 2 == 0

/-- Does the interval contain the number? -/
def Interval.contains (i : Interval) (r : Ratio) : Bool :=
  if i.closed then i.low.le r && r.le i.high else i.low.lt r && r.lt i.high

/-- The exponent of the leading decimal digit: the greatest `k` with `10 ^ k` at most the value. The
binary exponent gives it up to one. -/
def leadingExponent (m : Nat) (e : Int) : Int :=
  let value := Ratio.scale m 2 e
  let guess := (Int.ofNat m.log2 + e) * 30103 / 100000
  if (Ratio.scale 1 10 (guess + 1)).le value then guess + 1
  else if (Ratio.scale 1 10 guess).le value then guess
  else guess - 1

/-- The nearer of the two neighbours `n` and `n + 1` of a value on the grid of multiples of
`10 ^ k`, among those in the interval. -/
def pickNeighbour (interval : Interval) (value : Ratio) (n : Nat) (k : Int) : Option Nat :=
  match interval.contains (Ratio.scale n 10 k), interval.contains (Ratio.scale (n + 1) 10 k) with
  | true, false => some n
  | false, true => some (n + 1)
  | false, false => none
  | true, true =>
      let middle := Ratio.scale (10 * n + 5) 10 (k - 1)
      if value.lt middle then some n
      else if middle.lt value then some (n + 1)
      else if n % 2 = 0 then some n else some (n + 1)

/-- Search the grids with `tried + 1`, `tried + 2`, … digits, at most `more` of them. The answer is
an integer and the exponent of its unit. -/
def searchGrids
    (interval : Interval)
    (value : Ratio)
    (lead : Int) :
    Nat → Nat → Nat × Int
  | 0, tried => (value.floorAt (lead - Int.ofNat tried), lead - Int.ofNat tried)
  | more + 1, tried =>
      let unit := lead - Int.ofNat tried
      match pickNeighbour interval value (value.floorAt unit) unit with
      | some n => (n, unit)
      | none => searchGrids interval value lead more (tried + 1)

/-- The digits of a decimal number and the exponent of the first one: `⟨[1, 2], 0⟩` is 1.2. -/
structure Digits where
  digits : List Char
  exponent : Int

/-- The digits of `n * 10 ^ unit`, without trailing zeros. -/
def Digits.ofScaled (n : Nat) (unit : Int) : Digits :=
  let all := Nat.toDigits 10 n
  let kept := (all.reverse.dropWhile (· == '0')).reverse
  ⟨if kept.isEmpty then ['0'] else kept, unit + Int.ofNat all.length - 1⟩

/-- The shortest digits that read back as `m * 2 ^ e`; zero is the single digit `0`. -/
def shortestDigits (m : Nat) (e : Int) : Digits :=
  if m = 0 then
    ⟨['0'], 0⟩
  else
    let found := searchGrids (roundingInterval m e) (Ratio.scale m 2 e) (leadingExponent m e) 17 0
    Digits.ofScaled found.1 found.2

end Lox.Decimal
