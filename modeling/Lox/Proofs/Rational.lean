import Lox.Decimal.Binary
import Mathlib

/-!
# The rational value of a number

A finite floating-point number stands for a rational number. What `Decimal.decode` takes apart is
the number that the floating-point format means, `Decimal.toInt?` finds an integer exactly if the
value is one, and every finite number is below 2¹⁰²⁴ in magnitude.
-/

namespace Lox.Decimal

open Float.Model (UnpackedFloat Format)
open Float.Model.UnpackedFloat

/-- Is the sign the negative one? -/
def signBit : UnpackedFloat.Sign → Bool
  | .negative => true
  | .positive => false

/-- The number taken apart. -/
def ofUnpacked : UnpackedFloat → Decoded
  | .notANumber => .nan
  | .infinity s => .infinite (signBit s)
  | .zero s => .finite (signBit s) 0 leastExponent
  | .finite s m e _ => .finite (signBit s) m e

section Fields

variable (bits : BitVec Format.binary64.numBits)

theorem toNat_unpackMantissa :
    (unpackMantissa bits).toNat = bits.toNat % Nat.pow 2 52 := by
  simp [unpackMantissa, BitVec.extractLsb]

theorem toNat_unpackExponent :
    (unpackExponent bits).toNat = bits.toNat / Nat.pow 2 52 % 2048 := by
  simp [unpackExponent, BitVec.extractLsb, Nat.shiftRight_eq_div_pow]

theorem toNat_unpackSign : (unpackSign bits).toNat = bits.toNat / Nat.pow 2 63 := by
  have hbits : bits.toNat < 2 ^ 64 := bits.isLt
  have hlt : bits.toNat / Nat.pow 2 63 < 2 := Nat.div_lt_of_lt_mul hbits
  calc (unpackSign bits).toNat
      _ = bits.toNat >>> 63 % 2 := BitVec.extractLsb'_toNat 63 1 bits
      _ = bits.toNat / Nat.pow 2 63 % 2 := by rw [Nat.shiftRight_eq_div_pow]
      _ = bits.toNat / Nat.pow 2 63 := Nat.mod_eq_of_lt hlt

theorem signBit_unpackSign :
    signBit (.ofBitVec (unpackSign bits)) = (bits.toNat / Nat.pow 2 63 == 1) := by
  rw [← toNat_unpackSign]
  generalize unpackSign bits = b
  rcases BitVec.eq_zero_or_eq_one b with rfl | rfl <;> rfl

end Fields

theorem toNat_one_append (mantissa : BitVec 52) :
    (1#1 ++ mantissa).toNat = mantissa.toNat + Nat.pow 2 52 := by
  rw [BitVec.toNat_append, ← Nat.shiftLeft_add_eq_or_of_lt mantissa.isLt, Nat.add_comm]
  rfl

/-- The parts of a number are those of its format. -/
theorem decode_eq (x : Float) : decode x = ofUnpacked x.toModel.unpack := by
  have hmantissa := toNat_unpackMantissa x.toModel.toBits.toBitVec
  have hexponent := toNat_unpackExponent x.toModel.toBits.toBitVec
  have hsign := signBit_unpackSign x.toModel.toBits.toBitVec
  have hbits : x.toBits.toNat = x.toModel.toBits.toBitVec.toNat := rfl
  unfold decode Float.Model.unpack UnpackedFloat.unpack
  simp only [hbits, ← hmantissa, ← hexponent, ← hsign, ← BitVec.toNat_inj]
  have hones : (-1#11).toNat = 2047 := rfl
  have hzero : (0#11).toNat = 0 := rfl
  have hzero' : (0#52).toNat = 0 := rfl
  simp only [hones, hzero, hzero']
  split
  · split <;> rfl
  · split
    · split
      · next h =>
          rw [h]
          rfl
      · next hfield _ =>
          simp only [ofUnpacked, hfield]
          rfl
    · simp only [ofUnpacked, toNat_one_append]
      rfl

end Lox.Decimal

namespace Lox.Number

open Float.Model (UnpackedFloat)
open Decimal (toInt? decode decode_eq ofUnpacked signBit)

/-- The rational number that a floating-point number stands for, if it is finite. -/
def rational? (x : Float) : Option ℚ :=
  match x.toModel.unpack with
  | .zero _ => some 0
  | .finite .positive m e _ => some (m * 2 ^ e)
  | .finite .negative m e _ => some (-(m * 2 ^ e))
  | .infinity _ | .notANumber => none

/-- The whole number `m * 2 ^ e`, if that is one. -/
def whole? (m : Nat) (e : Int) : Option Nat :=
  if 0 ≤ e then some (m * Nat.pow 2 e.toNat)
  else if m % Nat.pow 2 (-e).toNat = 0 then some (m / Nat.pow 2 (-e).toNat)
  else none

theorem whole?_eq_some_iff {m : Nat} {e : Int} {n : Nat} :
    whole? m e = some n ↔ (m * 2 ^ e : ℚ) = n := by
  unfold whole?
  split
  · next he =>
      obtain ⟨k, rfl⟩ := Int.eq_ofNat_of_zero_le he
      rw [zpow_natCast, Option.some.injEq]
      exact_mod_cast Iff.rfl
  · next he =>
      have hneg : 0 ≤ -e := by omega
      obtain ⟨k, hk⟩ := Int.eq_ofNat_of_zero_le hneg
      obtain rfl : e = -(k : Int) := by omega
      have hpos : (2 : ℚ) ^ k ≠ 0 := pow_ne_zero k two_ne_zero
      have hvalue : (m * 2 ^ (-(k : Int)) : ℚ) = n ↔ m = n * 2 ^ k := by
        rw [zpow_neg, zpow_natCast, ← div_eq_mul_inv, div_eq_iff hpos]
        exact_mod_cast Iff.rfl
      have hpow : Nat.pow 2 (- -(k : Int)).toNat = 2 ^ k := by
        rw [Int.neg_neg, Int.toNat_natCast]
        rfl
      rw [hvalue, hpow]
      split
      · next hmod =>
          rw [Option.some.injEq]
          constructor
          · rintro rfl
            exact (Nat.div_mul_cancel (Nat.dvd_of_mod_eq_zero hmod)).symm
          · rintro rfl
            exact Nat.mul_div_cancel _ (Nat.two_pow_pos k)
      · next hmod =>
          constructor
          · nofun
          · rintro rfl
            exact absurd (Nat.mul_mod_left _ _) hmod

theorem signed_whole?_eq_some_iff {negative : Bool} {m : Nat} {e : Int} {i : Int} :
    (whole? m e).map (fun n => if negative then -Int.ofNat n else Int.ofNat n) = some i ↔
      (if negative then -(m * 2 ^ e) else m * 2 ^ e : ℚ) = i := by
  have hpos : (0 : ℚ) ≤ m * 2 ^ e :=
    mul_nonneg (Nat.cast_nonneg m) (zpow_nonneg zero_le_two e)
  have hwhole (n : Nat) : n ∈ whole? m e ↔ (m * 2 ^ e : ℚ) = n := whole?_eq_some_iff
  rw [Option.map_eq_some_iff]
  cases negative with
  | false =>
      constructor
      · rintro ⟨n, hn, rfl⟩
        exact (hwhole n).mp hn
      · intro h
        have h' : (m * 2 ^ e : ℚ) = i := h
        obtain ⟨n, rfl⟩ := Int.eq_ofNat_of_zero_le (Int.cast_nonneg_iff.mp (h' ▸ hpos))
        exact ⟨n, (hwhole n).mpr h, rfl⟩
  | true =>
      constructor
      · rintro ⟨n, hn, rfl⟩
        simp [(hwhole n).mp hn]
      · intro h
        have h' : (m * 2 ^ e : ℚ) = (-i : Int) := by
          rw [Int.cast_neg, ← h]
          simp
        obtain ⟨n, hn⟩ := Int.eq_ofNat_of_zero_le (Int.cast_nonneg_iff.mp (h' ▸ hpos))
        refine ⟨n, (hwhole n).mpr ?_, ?_⟩
        · rw [h', hn]
          rfl
        · have hi : i = -(n : Int) := by omega
          exact hi.symm

/-- The integer that a number is equal to is its value. -/
theorem toInt?_eq_some_iff {x : Float} {i : Int} :
    toInt? x = some i ↔ rational? x = some (i : ℚ) := by
  unfold toInt? rational?
  rw [decode_eq]
  cases x.toModel.unpack with
  | notANumber => simp [ofUnpacked]
  | infinity s => simp [ofUnpacked]
  | zero s => exact signed_whole?_eq_some_iff.trans (by cases s <;> simp [signBit])
  | finite s m e h =>
      cases s with
      | positive => exact signed_whole?_eq_some_iff.trans (by simp [signBit])
      | negative => exact signed_whole?_eq_some_iff.trans (by simp [signBit])

section Parts

variable {x : Float} {q : ℚ} {negative : Bool} {m : Nat} {e : Int}

/-- The value of the parts of a number. -/
theorem rational?_eq (x : Float) :
    rational? x =
      match decode x with
      | .finite negative m e => some (if negative then -(m * 2 ^ e) else m * 2 ^ e)
      | .infinite _ | .nan => none := by
  unfold rational?
  rw [decode_eq]
  cases x.toModel.unpack with
  | notANumber | infinity => rfl
  | zero s => cases s <;> simp [ofUnpacked]
  | finite s m e h => cases s <;> rfl

theorem decode_of_rational? (h : rational? x = some q) :
    ∃ negative, ∃ m : Nat, ∃ e : Int, decode x = .finite negative m e ∧
      q = if negative then -(m * 2 ^ e : ℚ) else m * 2 ^ e := by
  rw [rational?_eq] at h
  cases hx : decode x with
  | nan | infinite => simp [hx] at h
  | finite negative m e =>
      rw [hx] at h
      exact ⟨negative, m, e, rfl, (Option.some.inj h).symm⟩

theorem abs_rational?_eq (h : rational? x = some q) :
    ∃ negative, ∃ m : Nat, ∃ e : Int, decode x = .finite negative m e ∧ |q| = m * 2 ^ e := by
  obtain ⟨negative, m, e, hparts, rfl⟩ := decode_of_rational? h
  have hpos : (0 : ℚ) ≤ m * 2 ^ e := by positivity
  refine ⟨negative, m, e, hparts, ?_⟩
  cases negative with
  | false => exact abs_of_nonneg hpos
  | true => exact (abs_neg _).trans (abs_of_nonneg hpos)

/-- A significand has at most 53 bits, and the greatest exponent field is that of infinity. -/
theorem bounds_of_decode (h : decode x = .finite negative m e) : m < 2 ^ 53 ∧ e ≤ 971 := by
  have hfraction : x.toBits.toNat % Nat.pow 2 52 < 2 ^ 52 := Nat.mod_lt _ (by decide)
  have hfield : x.toBits.toNat / Nat.pow 2 52 % 2048 < 2048 := Nat.mod_lt _ (by decide)
  unfold decode at h
  simp only at h
  split at h
  · split at h <;> cases h
  · next hmax =>
      split at h
      · cases h
        exact ⟨hfraction.trans (by decide), by decide⟩
      · cases h
        have htop : Nat.pow 2 52 = 2 ^ 52 := rfl
        refine ⟨by omega, ?_⟩
        rw [Int.ofNat_eq_natCast]
        omega

/-- Every finite number is below the first power of two that is too large. -/
theorem abs_rational?_lt (h : rational? x = some q) : |q| < 2 ^ (1024 : ℤ) := by
  obtain ⟨negative, m, e, hparts, hq⟩ := abs_rational?_eq h
  obtain ⟨hm, he⟩ := bounds_of_decode hparts
  have hm' : (m : ℚ) < 2 ^ (53 : ℤ) := by exact_mod_cast hm
  have he' : (2 : ℚ) ^ e ≤ 2 ^ (971 : ℤ) := zpow_le_zpow_right₀ one_le_two he
  calc |q|
      _ = m * 2 ^ e := hq
      _ ≤ m * 2 ^ (971 : ℤ) := mul_le_mul_of_nonneg_left he' (Nat.cast_nonneg m)
      _ < 2 ^ (53 : ℤ) * 2 ^ (971 : ℤ) := mul_lt_mul_of_pos_right hm' (zpow_pos two_pos 971)
      _ = 2 ^ (1024 : ℤ) := (zpow_add₀ two_ne_zero 53 971).symm

end Parts

end Lox.Number
