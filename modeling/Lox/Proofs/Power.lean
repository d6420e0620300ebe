import Lox.Eval.Operation
import Lox.Proofs.Sign

/-!
# The sign of a power

For a positive base `x` and an integral exponent `n`, the power of the negative base is that of the
positive one, negated if `n` is odd. The two bases have the same magnitude, so they fail alike, and
only the failure that a result is too large forgets the sign: the program then sees positive
infinity for both.

* `checkedPower_neg`: before a failure becomes a number, the symmetry holds without exception.
* `certainlyOverflows_iff`, `lt_power_of_certainlyOverflows`: what the comparison of exponents
  decides, and that no finite number is as large as such a power.
* `sign_of_power`: the symmetry of the operator, with its exception.
-/

namespace Lox

namespace Number

open Decimal (decode isNegative toInt?)

variable {x n : Float} {i : ℤ}

section Exponent

theorem isOdd_iff (hn : rational? n = some (i : ℚ)) : isOdd n = true ↔ Odd i := by
  rw [isOdd, toInt?_eq_some_iff.mpr hn, beq_iff_eq, ← Nat.odd_iff, Int.natAbs_odd]

theorem beq_zero_iff_eq_zero (hn : rational? n = some (i : ℚ)) : (n == 0.0) = true ↔ i = 0 := by
  rw [beq_zero_iff, hn, Option.some.injEq, Int.cast_eq_zero]

end Exponent

section Symmetry

theorem certainlyOverflows_neg (x n : Float) :
    certainlyOverflows (-x) n = certainlyOverflows x n := by
  unfold certainlyOverflows
  rw [decode_neg]
  cases decode x with
  | nan | infinite => rfl
  | finite => cases toInt? n <;> rfl

theorem certainlyOverflows_one (n : Float) : certainlyOverflows 1.0 n = false := by
  have hparts : decode 1.0 = .finite false (2 ^ 52) (-52) := rfl
  have hlog : Int.ofNat (2 ^ 52).log2 + -52 = 0 := by rw [Nat.log2_two_pow]; rfl
  unfold certainlyOverflows
  rw [hparts]
  cases toInt? n with
  | none => rfl
  | some i =>
      simp only [hlog, zero_mul]
      simp

/-- An integral power of a base other than zero fails only by being too large. -/
theorem finitePower_eq (hx : (x == 0.0) = false) (hn : rational? n = some (i : ℚ)) :
    finitePower x n =
      if certainlyOverflows x n || (powerOfMagnitude x.abs n).isInf then .error .range
      else .ok (withSign (isNegative x && isOdd n) (powerOfMagnitude x.abs n)) := by
  unfold finitePower
  rw [hx, toInt?_eq_some_iff.mpr hn]
  simp

theorem finitePower_one (hn : rational? n = some (i : ℚ)) : finitePower 1.0 n = .ok 1.0 := by
  have hmagnitude : powerOfMagnitude (1.0 : Float).abs n = 1.0 := rfl
  rw [finitePower_eq rfl hn, certainlyOverflows_one, hmagnitude]
  rfl

/-- Of two finite bases that differ in sign, both have a power or neither has one. -/
theorem finitePower_neg {m : Nat} {e : Int} (hx : 0.0 < x) (hparts : decode x = .finite false m e)
    (hn : rational? n = some (i : ℚ)) :
    finitePower (-x) n = (finitePower x n).map (withSign (isOdd n)) := by
  have hzero : (x == 0.0) = false := beq_zero_of_pos hx
  have hsign : isNegative x = false := isNegative_of_decode hparts
  have hnegsign : isNegative (-x) = true :=
    isNegative_of_decode (by rw [decode_neg, hparts]; rfl)
  rw [finitePower_eq (neg_beq_zero x ▸ hzero) hn, finitePower_eq hzero hn, certainlyOverflows_neg,
    magnitude_neg, hsign, hnegsign]
  split <;> rfl

/-- An integral power other than the zeroth is a limit if the base is infinite. -/
theorem checkedPower_eq (hn : rational? n = some (i : ℚ)) (hzero : (n == 0.0) = false) :
    checkedPower x n =
      match decode x with
      | .nan => .ok notANumber
      | .infinite negative =>
          .ok (withSign (negative && isOdd n) (if isNegative n then 0.0 else infinity))
      | .finite .. => finitePower x n := by
  cases hone : x == 1.0 with
  | true =>
      -- a base of one is not left to `finitePower`, which would give the same
      obtain rfl : x = 1.0 := eq_one_of_beq hone
      have hparts : decode 1.0 = .finite false (2 ^ 52) (-52) := rfl
      simp only [checkedPower, hone, Bool.or_true, if_true, hparts, finitePower_one hn]
  | false =>
      obtain ⟨below, m, e, hparts, -⟩ := decode_of_rational? hn
      unfold checkedPower
      rw [hzero, hone, hparts, isNegative_of_decode hparts]
      cases decode x <;> rfl

/-- The power of a negative base is that of the positive one, negated if the exponent is odd; the
one fails exactly as the other does. -/
theorem checkedPower_neg (hx : 0.0 < x) (hn : rational? n = some (i : ℚ)) :
    checkedPower (-x) n = (checkedPower x n).map (withSign (isOdd n)) := by
  cases hzero : n == 0.0 with
  | true =>
      have hodd : isOdd n = false := by
        rw [← Bool.not_eq_true, isOdd_iff hn, (beq_zero_iff_eq_zero hn).mp hzero]
        decide
      simp [checkedPower, hzero, hodd, withSign, Except.map]
  | false =>
      rw [checkedPower_eq hn hzero, checkedPower_eq hn hzero, decode_neg]
      obtain hparts | ⟨m, e, -, hparts⟩ := decode_of_pos hx
      · rw [hparts]
        rfl
      · rw [hparts]
        exact finitePower_neg hx hparts hn

end Symmetry

section Overflow

theorem isInf_infinity : infinity.isInf = true := by rfl

theorem isInf_notANumber : notANumber.isInf = false := by rfl

theorem isInf_withSign (negative : Bool) (x : Float) : (withSign negative x).isInf = x.isInf := by
  cases negative with
  | false => rfl
  | true => exact isInf_neg x

theorem isFinite_iff : x.isFinite = true ↔ ∃ negative m e, decode x = .finite negative m e := by
  change x.toModel.unpack.isFinite = true ↔ _
  rw [Decimal.decode_eq]
  cases x.toModel.unpack with
  | notANumber | infinity => exact iff_of_false nofun nofun
  | zero s => exact iff_of_true rfl ⟨_, _, _, rfl⟩
  | finite s m e => exact iff_of_true rfl ⟨_, _, _, rfl⟩

theorem isInf_of_finitePower {p : Float} (h : finitePower x n = .ok p) : p.isInf = false := by
  unfold finitePower at h
  simp only at h
  split at h
  · cases h
  · split at h
    · cases h
    · next hsmall =>
        rw [Bool.or_eq_true, not_or] at hsmall
        cases h
        rw [isInf_withSign]
        exact Bool.eq_false_of_not_eq_true hsmall.2

/-- A power is too large exactly if the program sees an infinite one for finite operands. -/
theorem checkedPower_eq_range_iff (hn : rational? n = some (i : ℚ)) :
    checkedPower x n = .error .range ↔ x.isFinite = true ∧ (power x n).isInf = true := by
  cases hzero : n == 0.0 with
  | true =>
      have hone : checkedPower x n = .ok 1.0 := by simp [checkedPower, hzero]
      refine iff_of_false (by simp [hone]) fun h => ?_
      simp only [power, hone] at h
      exact absurd h.2 (by decide)
  | false =>
      rw [isFinite_iff, power, checkedPower_eq hn hzero]
      cases hx : decode x with
      | nan | infinite => simp
      | finite negative m e =>
          cases hpower : finitePower x n with
          | ok p => simp [isInf_of_finitePower hpower]
          | error reason =>
              cases reason with
              | range => simp [isInf_infinity]
              | domain => simp [isInf_notANumber]

theorem eq_infinity_of_isInf (hn : rational? n = some (i : ℚ))
    (h : x.isFinite = true ∧ (power x n).isInf = true) : power x n = infinity := by
  rw [power, (checkedPower_eq_range_iff hn).mpr h]

/-- The power of a negative base, as the program sees it. -/
theorem power_neg (hx : 0.0 < x) (hn : rational? n = some (i : ℚ)) :
    power (-x) n =
      if x.isFinite = true ∧ (power x n).isInf = true then infinity
      else withSign (isOdd n) (power x n) := by
  rw [if_congr (checkedPower_eq_range_iff hn).symm rfl rfl, power, power, checkedPower_neg hx hn]
  cases checkedPower x n with
  | ok p => rfl
  | error reason =>
      cases reason with
      | range => rfl
      -- not-a-number has no sign
      | domain => cases isOdd n <;> rfl

end Overflow

section Magnitude

variable {q r : ℚ} {y : Float} {m : Nat} {e k : ℤ}

/-- The leading bit decides which powers of two a number reaches. -/
theorem two_zpow_le_iff (hm : m ≠ 0) : (2 : ℚ) ^ k ≤ m * 2 ^ e ↔ k ≤ m.log2 + e := by
  have hpos : (0 : ℚ) < 2 ^ e := zpow_pos two_pos e
  have hm' : (0 : ℚ) < m := Nat.cast_pos.mpr (Nat.pos_of_ne_zero hm)
  calc (2 : ℚ) ^ k ≤ m * 2 ^ e
      _ ↔ (2 : ℚ) ^ (k - e) ≤ m := by rw [zpow_sub₀ two_ne_zero, div_le_iff₀ hpos]
      _ ↔ k - e ≤ Int.log 2 (m : ℚ) := Int.zpow_le_iff_le_log one_lt_two hm'
      _ ↔ k - e ≤ m.log2 := by rw [Int.log_natCast, Nat.log2_eq_log_two]
      _ ↔ k ≤ m.log2 + e := sub_le_iff_le_add

/-- The comparison of exponents decides whether a power of two below the base has a power that is
too large. -/
theorem certainlyOverflows_iff (hx : rational? x = some q) (hn : rational? n = some (i : ℚ)) :
    certainlyOverflows x n = true ↔ 0 < i ∧ ∃ k : ℤ, 2 ^ k ≤ |q| ∧ 1024 ≤ k * i := by
  obtain ⟨negative, m, e, hparts, hq⟩ := abs_rational?_eq hx
  unfold certainlyOverflows
  rw [hparts, toInt?_eq_some_iff.mpr hn, hq]
  simp only [Bool.and_eq_true, bne_iff_ne, decide_eq_true_iff]
  constructor
  · rintro ⟨⟨hm, hi⟩, hlarge⟩
    exact ⟨hi, m.log2 + e, (two_zpow_le_iff hm).mpr le_rfl, hlarge⟩
  · rintro ⟨hi, k, hk, hlarge⟩
    have hm : m ≠ 0 := by
      rintro rfl
      have hpos : (0 : ℚ) < 2 ^ k := zpow_pos two_pos k
      simp only [Nat.cast_zero, zero_mul] at hk
      exact absurd hk (not_le_of_gt hpos)
    refine ⟨⟨hm, hi⟩, hlarge.trans ?_⟩
    exact mul_le_mul_of_nonneg_right ((two_zpow_le_iff hm).mp hk) hi.le

/-- No finite number is as large as a power that certainly overflows. -/
theorem lt_power_of_certainlyOverflows (hx : rational? x = some q)
    (hn : rational? n = some (i : ℚ)) (h : certainlyOverflows x n = true)
    (hy : rational? y = some r) : |r| < |q| ^ i := by
  obtain ⟨hi, k, hk, hlarge⟩ := (certainlyOverflows_iff hx hn).mp h
  calc |r|
      _ < (2 : ℚ) ^ (1024 : ℤ) := abs_rational?_lt hy
      _ ≤ 2 ^ (k * i) := zpow_le_zpow_right₀ one_le_two hlarge
      _ = (2 ^ k) ^ i := zpow_mul 2 k i
      _ ≤ |q| ^ i := zpow_le_zpow_left₀ hi.le (by positivity) hk

/-- A power is infinite if that of a power of two below the base is too large. -/
theorem power_eq_infinity (hx : rational? x = some q) (hn : rational? n = some (i : ℚ))
    (hi : 0 < i) (hk : 2 ^ k ≤ |q|) (hlarge : 1024 ≤ k * i) : power x n = infinity := by
  have hover : certainlyOverflows x n = true :=
    (certainlyOverflows_iff hx hn).mpr ⟨hi, k, hk, hlarge⟩
  have hzero : (n == 0.0) = false := by
    rw [← Bool.not_eq_true, beq_zero_iff_eq_zero hn]
    exact hi.ne'
  have hbase : (x == 0.0) = false := by
    have hpos : 0 < |q| := (zpow_pos two_pos k).trans_le hk
    rw [← Bool.not_eq_true, beq_zero_iff, hx, Option.some.injEq]
    exact abs_pos.mp hpos
  obtain ⟨negative, m, e, hparts, -⟩ := decode_of_rational? hx
  rw [power, checkedPower_eq hn hzero, hparts]
  simp only [finitePower_eq hbase hn, hover, Bool.true_or, if_true]

end Magnitude

end Number

section Operators

open Number (rational? infinity)

variable {x n : Float} {i : ℤ}

/-- The value of `(-x) ** n`. -/
def powerOfNegative (x n : Value) : Except Fault Value := do
  BinaryOp.power.apply (← UnaryOp.negate.apply x) n

/-- The value of `-(x ** n)`. -/
def negativeOfPower (x n : Value) : Except Fault Value := do
  UnaryOp.negate.apply (← BinaryOp.power.apply x n)

/-- For a base other than zero the operator is the power. -/
theorem power_apply (hx : (x == 0.0) = false) :
    BinaryOp.power.apply (.number x) (.number n) = .ok (.number (Number.power x n)) := by
  simp [BinaryOp.apply, BinaryOp.onNumbers, hx]

theorem powerOfNegative_eq (hx : 0.0 < x) :
    powerOfNegative (.number x) (.number n) = .ok (.number (Number.power (-x) n)) :=
  power_apply (Number.neg_beq_zero x ▸ Number.beq_zero_of_pos hx)

theorem negativeOfPower_eq (hx : 0.0 < x) :
    negativeOfPower (.number x) (.number n) = .ok (.number (-Number.power x n)) := by
  rw [negativeOfPower, power_apply (Number.beq_zero_of_pos hx)]
  rfl

/-- If the power of a power of two below the base is too large, then the sign of the base is lost:
both bases have the power positive infinity. -/
theorem overflow_forgets_sign {q : ℚ} {k : ℤ} (hx : 0.0 < x) (hq : rational? x = some q)
    (hn : rational? n = some (i : ℚ)) (hi : 0 < i) (hk : 2 ^ k ≤ q) (hlarge : 1024 ≤ k * i) :
    powerOfNegative (.number x) (.number n) = .ok (.number infinity) ∧
      negativeOfPower (.number x) (.number n) = .ok (.number (-infinity)) := by
  have hneg : rational? (-x) = some (-q) := by rw [Number.rational?_neg, hq]; rfl
  have hk' : 2 ^ k ≤ |q| := hk.trans (le_abs_self q)
  rw [powerOfNegative_eq hx, negativeOfPower_eq hx]
  rw [Number.power_eq_infinity hneg hn hi (abs_neg q ▸ hk') hlarge,
    Number.power_eq_infinity hq hn hi hk' hlarge]
  exact ⟨rfl, rfl⟩

/-- The power of a negative base is that of the positive one if the exponent is even. If it is odd,
the power of the negative base is the negative of that of the positive one, unless that one is too
large, for then both are positive infinity. -/
theorem sign_of_power (hx : 0.0 < x) (hn : rational? n = some (i : ℚ)) :
    ∃ p, BinaryOp.power.apply (.number x) (.number n) = .ok (.number p) ∧
      (Even i → powerOfNegative (.number x) (.number n) = .ok (.number p)) ∧
      (Odd i →
        powerOfNegative (.number x) (.number n) =
          if x.isFinite = true ∧ p.isInf = true then .ok (.number infinity)
          else negativeOfPower (.number x) (.number n)) := by
  refine ⟨Number.power x n, power_apply (Number.beq_zero_of_pos hx), ?_, ?_⟩
  · intro heven
    have heven' : Number.isOdd n = false := by
      rw [← Bool.not_eq_true, Number.isOdd_iff hn, Int.not_odd_iff_even]
      exact heven
    rw [powerOfNegative_eq hx, Number.power_neg hx hn, heven']
    split
    · next hlarge => rw [Number.eq_infinity_of_isInf hn hlarge]
    · rfl
  · intro hodd
    have hodd' : Number.isOdd n = true := (Number.isOdd_iff hn).mpr hodd
    rw [powerOfNegative_eq hx, negativeOfPower_eq hx, Number.power_neg hx hn, hodd']
    split <;> rfl

theorem sign_of_power_infinite :
    0.0 < infinity ∧ rational? 3.0 = some ((3 : ℤ) : ℚ) ∧
      powerOfNegative (.number infinity) (.number 3.0) =
        negativeOfPower (.number infinity) (.number 3.0) := by
  have hpos : 0.0 < infinity := by decide
  have hthree : rational? 3.0 = some ((3 : ℤ) : ℚ) := Number.toInt?_eq_some_iff.mp rfl
  obtain ⟨p, -, -, hodd⟩ := sign_of_power hpos hthree
  have hinfinite : infinity.isFinite = false := rfl
  refine ⟨hpos, hthree, ?_⟩
  rw [hodd (by decide), hinfinite, if_neg (by simp)]

/-- An odd power of a negative number need not be negative: `(-10) ** 401` is positive infinity and
`-(10 ** 401)` is negative infinity. -/
theorem negative_base_overflows_upwards :
    0.0 < (10.0 : Float) ∧ rational? 401.0 = some ((401 : ℤ) : ℚ) ∧ Odd (401 : ℤ) ∧
      powerOfNegative (.number 10.0) (.number 401.0) = .ok (.number infinity) ∧
      negativeOfPower (.number 10.0) (.number 401.0) = .ok (.number (-infinity)) ∧
      (Value.number infinity).equals (.number (-infinity)) = false := by
  have hpos : 0.0 < (10.0 : Float) := by decide
  have hten : rational? 10.0 = some ((10 : ℤ) : ℚ) := Number.toInt?_eq_some_iff.mp rfl
  have hexponent : rational? 401.0 = some ((401 : ℤ) : ℚ) := Number.toInt?_eq_some_iff.mp rfl
  have height : (2 : ℚ) ^ (3 : ℤ) ≤ ((10 : ℤ) : ℚ) := by norm_num
  obtain ⟨h, h'⟩ := overflow_forgets_sign hpos hten hexponent (by decide) height (by decide)
  exact ⟨hpos, hexponent, by decide, h, h', rfl⟩

end Operators

end Lox
