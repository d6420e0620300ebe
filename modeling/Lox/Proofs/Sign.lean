import Lox.Proofs.Equality
import Lox.Proofs.Rational

/-!
# The sign of a number

Negation and magnitude change the sign bit of a number and nothing else. So a number and its
negative have the same significand and exponent, and the same magnitude.
-/

namespace Lox.Decimal

/-- The parts of the negative. -/
def Decoded.negate : Decoded → Decoded
  | .nan => .nan
  | .infinite negative => .infinite !negative
  | .finite negative m e => .finite (!negative) m e

end Lox.Decimal

namespace Lox.Number

open Float.Model (UnpackedFloat Format)
open Float.Model.UnpackedFloat
open Decimal (Decoded decode decode_eq ofUnpacked signBit isNegative)

section Unpacked

/-- The number with another sign. -/
def signed (s : Sign) : UnpackedFloat → UnpackedFloat
  | .notANumber => .notANumber
  | .infinity _ => .infinity s
  | .zero _ => .zero s
  | .finite _ m e h => .finite s m e h

theorem neg_eq_signed (u : UnpackedFloat) : ∃ s, u.neg = signed s u := by
  cases u with
  | notANumber => exact ⟨.positive, rfl⟩
  | infinity s | zero s | finite s => exact ⟨-s, rfl⟩

theorem abs_eq_signed (u : UnpackedFloat) : u.abs = signed .positive u := by
  cases u <;> rfl

theorem signBit_neg (s : Sign) : signBit (-s) = !signBit s := by
  cases s <;> rfl

theorem unpack_of_isNaNBits {bits : BitVec Format.binary64.numBits} (h : isNaNBits bits = true) :
    unpack .binary64 bits = .notANumber := by
  rw [isNaNBits, decide_eq_true_iff] at h
  unfold UnpackedFloat.unpack
  simp only [if_pos h.1, if_neg h.2]

/-- The bits with another sign are the number with another sign. -/
theorem unpack_packComponents (s : Sign) (bits : BitVec Format.binary64.numBits) :
    unpack .binary64 (packComponents .binary64 s (unpackExponent bits) (unpackMantissa bits)) =
      signed s (unpack .binary64 bits) := by
  unfold UnpackedFloat.unpack
  simp only [unpackMantissa_packComponents, unpackExponent_packComponents,
    unpackSign_packComponents, Sign.ofBitVec_toBitVec]
  split
  · split <;> rfl
  · split
    · split <;> rfl
    · rfl

/-- A number that is packed with another sign is unpacked with that sign. -/
theorem unpack_pack_signed (s : Sign) (bits : BitVec Format.binary64.numBits) :
    unpack .binary64 (pack .binary64 (signed s (unpack .binary64 bits))) =
      signed s (unpack .binary64 bits) := by
  rw [← unpack_packComponents, pack_unpack]
  -- packing what was unpacked gives the bits back, except those of not-a-number
  split
  · next hnan => rw [unpack_packedNaN, unpack_of_isNaNBits hnan]
  · rfl

end Unpacked

section Values

variable {x y : Float}

theorem eq_of_unpack_eq (h : x.toModel.unpack = y.toModel.unpack) : x = y := by
  obtain ⟨⟨bits, hx⟩⟩ := x
  obtain ⟨⟨bits', hy⟩⟩ := y
  have hbits : bits.toBitVec = bits'.toBitVec := (unpack_inj_of_valid hx hy).mp h
  obtain rfl : bits = bits' := UInt64.toBitVec_inj.mp hbits
  rfl

theorem unpack_neg (x : Float) : (-x).toModel.unpack = x.toModel.unpack.neg := by
  obtain ⟨s, hs⟩ := neg_eq_signed x.toModel.unpack
  calc (-x).toModel.unpack
      _ = (Float.Model.pack x.toModel.unpack.neg).unpack := rfl
      _ = (Float.Model.pack (signed s x.toModel.unpack)).unpack := by rw [hs]
      _ = signed s x.toModel.unpack := unpack_pack_signed s _
      _ = x.toModel.unpack.neg := hs.symm

theorem unpack_abs (x : Float) : x.abs.toModel.unpack = x.toModel.unpack.abs := by
  calc x.abs.toModel.unpack
      _ = (Float.Model.pack x.toModel.unpack.abs).unpack := rfl
      _ = (Float.Model.pack (signed .positive x.toModel.unpack)).unpack := by rw [abs_eq_signed]
      _ = signed .positive x.toModel.unpack := unpack_pack_signed .positive _
      _ = x.toModel.unpack.abs := (abs_eq_signed _).symm

/-- A number and its negative have the same magnitude. -/
theorem magnitude_neg (x : Float) : (-x).abs = x.abs := by
  apply eq_of_unpack_eq
  rw [unpack_abs, unpack_abs, unpack_neg]
  cases x.toModel.unpack <;> rfl

theorem isInf_neg (x : Float) : (-x).isInf = x.isInf := by
  change (-x).toModel.unpack.isInf = x.toModel.unpack.isInf
  rw [unpack_neg]
  cases x.toModel.unpack <;> rfl

end Values

section Parts

variable {x : Float} {negative : Bool} {m : Nat} {e : Int}

theorem isNegative_of_decode (h : decode x = .finite negative m e) : isNegative x = negative := by
  unfold decode at h
  simp only at h
  split at h
  · split at h <;> cases h
  · split at h <;> cases h <;> rfl

theorem decode_neg (x : Float) : decode (-x) = (decode x).negate := by
  rw [decode_eq, decode_eq, unpack_neg]
  cases x.toModel.unpack with
  | notANumber => rfl
  | infinity s | zero s | finite s =>
      simp only [UnpackedFloat.neg, ofUnpacked, Decoded.negate, signBit_neg]

theorem rational?_neg (x : Float) : rational? (-x) = (rational? x).map (-·) := by
  rw [rational?_eq, rational?_eq, decode_neg]
  cases decode x with
  | nan | infinite => rfl
  | finite negative m e => cases negative <;> simp [Decoded.negate]

theorem beq_zero_iff : (x == 0.0) = true ↔ rational? x = some 0 := by
  have hzero : (0.0 : Float).toModel.unpack = .zero .positive := rfl
  rw [beq_iff, unpacked_compare_eq_iff, hzero]
  unfold rational?
  cases x.toModel.unpack with
  | notANumber | infinity | zero => simp
  | finite s m e h =>
      have hvalue : (m * 2 ^ e : ℚ) ≠ 0 := by positivity
      cases s <;> simpa using hvalue

theorem neg_beq_zero (x : Float) : (-x == 0.0) = (x == 0.0) := by
  rw [Bool.eq_iff_iff, beq_zero_iff, beq_zero_iff, rational?_neg]
  cases rational? x <;> simp

theorem eq_one_of_beq (h : (x == 1.0) = true) : x = 1.0 := by
  rw [beq_iff, unpacked_compare_eq_iff] at h
  obtain ⟨-, heq | ⟨-, t, ht⟩⟩ := h
  · exact eq_of_unpack_eq heq
  · cases ht

end Parts

section Positive

variable {x : Float} {q : ℚ}

theorem lt_iff {x y : Float} : x < y ↔ x.toModel.unpack.compare y.toModel.unpack = some .lt := by
  calc x < y
      _ ↔ decide (x.toModel < y.toModel) = true := Iff.rfl
      _ ↔ x.toModel < y.toModel := decide_eq_true_iff
      _ ↔ (x.toModel.unpack.compare y.toModel.unpack == some .lt) = true := Iff.rfl
      _ ↔ _ := beq_iff_eq

/-- A positive number is infinite or has a positive sign and a significand. -/
theorem decode_of_pos (h : 0.0 < x) :
    decode x = .infinite false ∨ ∃ m e, m ≠ 0 ∧ decode x = .finite false m e := by
  have hzero : (0.0 : Float).toModel.unpack = .zero .positive := rfl
  rw [lt_iff, hzero] at h
  rw [decode_eq]
  cases hx : x.toModel.unpack with
  | notANumber | zero => simp [hx, UnpackedFloat.compare] at h
  | infinity s =>
      cases s with
      | positive => exact .inl rfl
      | negative => simp [hx, UnpackedFloat.compare] at h
  | finite s m e hm =>
      cases s with
      | positive => exact .inr ⟨m, e, hm.ne', rfl⟩
      | negative => simp [hx, UnpackedFloat.compare] at h

theorem rational?_pos (h : 0.0 < x) (hq : rational? x = some q) : 0 < q := by
  rw [rational?_eq] at hq
  obtain hx | ⟨m, e, hm, hx⟩ := decode_of_pos h
  · simp [hx] at hq
  · simp only [hx, Option.some.injEq] at hq
    rw [← hq]
    simp only [Bool.false_eq_true, if_false]
    positivity

theorem beq_zero_of_pos (h : 0.0 < x) : (x == 0.0) = false := by
  rw [← Bool.not_eq_true, beq_zero_iff]
  intro hzero
  exact absurd (rational?_pos h hzero) (lt_irrefl 0)

end Positive

end Lox.Number
