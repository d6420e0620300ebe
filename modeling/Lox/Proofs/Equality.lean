import Lox.Collection.Dictionary

/-!
# Equality of numbers and keys

The equality of the language is that of floating-point numbers, by which both zeros are the same
and NaN is not even equal to itself. Among strings and the other numbers it is an equivalence
relation.
-/

namespace Lox

open Float.Model (UnpackedFloat)

section Unpacked

theorem compare_sign_eq_iff {s t : UnpackedFloat.Sign} : compare s t = .eq ↔ s = t := by
  cases s <;> cases t <;> simp [compare]

theorem compare_finite_eq_iff
    {s t : UnpackedFloat.Sign} {m m' : Nat} {e e' : Int} {h : 0 < m} {h' : 0 < m'} :
    (UnpackedFloat.finite s m e h).compare (.finite t m' e' h') = some .eq ↔
      s = t ∧ m = m' ∧ e = e' := by
  have hparts : (compare e e').then (compare m m') = .eq ↔ m = m' ∧ e = e' := by
    simp [Ordering.then_eq_eq, and_comm]
  cases s <;> cases t
  · change some ((compare e e').then (compare m m')).swap = some .eq ↔ _
    rw [Option.some_inj, Ordering.swap_eq_eq, hparts]
    simp
  · exact iff_of_false nofun nofun
  · exact iff_of_false nofun nofun
  · change some ((compare e e').then (compare m m')) = some .eq ↔ _
    rw [Option.some_inj, hparts]
    simp

/-- What compares as equal is equal, except that both zeros are the same number. -/
theorem unpacked_compare_eq_iff {x y : UnpackedFloat} :
    x.compare y = some .eq ↔
      x ≠ .notANumber ∧ (x = y ∨ (∃ s, x = .zero s) ∧ ∃ t, y = .zero t) := by
  -- numbers of two kinds are neither equal nor both zeros
  have hkinds (hne : x ≠ y) (hzero : ∀ s t, x = .zero s → y ≠ .zero t) :
      ¬(x ≠ .notANumber ∧ (x = y ∨ (∃ s, x = .zero s) ∧ ∃ t, y = .zero t)) := by
    rintro ⟨-, h | ⟨⟨s, hs⟩, t, ht⟩⟩
    · exact hne h
    · exact hzero s t hs ht
  cases x with
  | notANumber => exact iff_of_false nofun fun h => h.1 rfl
  | infinity s =>
      cases y with
      | infinity t =>
          change some (compare s t) = some .eq ↔ _
          rw [Option.some_inj, compare_sign_eq_iff]
          refine ⟨fun h => ⟨nofun, .inl (h ▸ rfl)⟩, ?_⟩
          rintro ⟨-, h | ⟨⟨u, hu⟩, -⟩⟩
          · exact UnpackedFloat.infinity.inj h
          · cases hu
      | notANumber => exact iff_of_false nofun (hkinds nofun nofun)
      | zero t => exact iff_of_false (by cases s <;> nofun) (hkinds nofun nofun)
      | finite t m e h => exact iff_of_false (by cases s <;> nofun) (hkinds nofun nofun)
  | zero s =>
      cases y with
      | infinity t => exact iff_of_false (by cases t <;> nofun) (hkinds nofun nofun)
      | notANumber => exact iff_of_false nofun (hkinds nofun nofun)
      | zero t => exact iff_of_true rfl ⟨nofun, .inr ⟨⟨s, rfl⟩, t, rfl⟩⟩
      | finite t m e h => exact iff_of_false (by cases t <;> nofun) (hkinds nofun nofun)
  | finite s m e h =>
      cases y with
      | infinity t => exact iff_of_false (by cases s <;> cases t <;> nofun) (hkinds nofun nofun)
      | notANumber => exact iff_of_false nofun (hkinds nofun nofun)
      | zero t => exact iff_of_false (by cases s <;> nofun) (hkinds nofun nofun)
      | finite t m' e' h' =>
          rw [compare_finite_eq_iff]
          constructor
          · rintro ⟨rfl, rfl, rfl⟩
            exact ⟨nofun, .inl rfl⟩
          · rintro ⟨-, heq | ⟨⟨u, hu⟩, -⟩⟩
            · cases heq
              exact ⟨rfl, rfl, rfl⟩
            · cases hu

theorem unpacked_isNaN_iff {x : UnpackedFloat} : x.isNaN = true ↔ x = .notANumber := by
  cases x with
  | notANumber => exact iff_of_true rfl rfl
  | infinity | zero | finite => exact iff_of_false nofun nofun

end Unpacked

namespace Number

variable {x y z : Float}

theorem beq_iff : (x == y) = true ↔ x.toModel.unpack.compare y.toModel.unpack = some .eq := by
  change (x.toModel.unpack.compare y.toModel.unpack == some .eq) = true ↔ _
  exact beq_iff_eq

theorem isNaN_iff : x.isNaN = true ↔ x.toModel.unpack = .notANumber :=
  unpacked_isNaN_iff

theorem beq_self_iff : (x == x) = true ↔ x.isNaN = false := by
  rw [beq_iff, unpacked_compare_eq_iff, ← Bool.not_eq_true, isNaN_iff]
  simp

theorem beq_symm (h : (x == y) = true) : (y == x) = true := by
  rw [beq_iff, unpacked_compare_eq_iff] at h ⊢
  obtain ⟨hx, heq | ⟨⟨s, hs⟩, t, ht⟩⟩ := h
  · exact ⟨heq ▸ hx, .inl heq.symm⟩
  · exact ⟨by simp [ht], .inr ⟨⟨t, ht⟩, s, hs⟩⟩

theorem beq_trans (h : (x == y) = true) (h' : (y == z) = true) : (x == z) = true := by
  rw [beq_iff, unpacked_compare_eq_iff] at h h' ⊢
  obtain ⟨hx, hxy⟩ := h
  obtain ⟨-, hyz⟩ := h'
  refine ⟨hx, ?_⟩
  rcases hxy with heq | ⟨hzero, t, ht⟩
  · rw [heq]
    exact hyz
  · rcases hyz with heq | ⟨-, hzero'⟩
    · exact .inr ⟨hzero, t, heq ▸ ht⟩
    · exact .inr ⟨hzero, hzero'⟩

end Number

namespace Value

variable {a b c : Value}

theorem equals_symm (h : a.equals b = true) : b.equals a = true := by
  cases a <;> cases b <;> simp_all [equals]
  exact Number.beq_symm h

theorem equals_trans (h : a.equals b = true) (h' : b.equals c = true) : a.equals c = true := by
  cases a <;> cases b <;> cases c <;> simp_all [equals]
  exact Number.beq_trans h h'

end Value
end Lox
