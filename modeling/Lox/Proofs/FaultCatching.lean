import Lox.Proofs.Lockstep

/-!
# Catching faults is conservative

Whether faults can be caught makes no difference to a run in which none is raised that could be. A
run that does not let the program catch faults ends with the first fault, so it is enough to know
that it does not end with one.
-/

namespace Lox

/-- A run that does not let faults be caught, beside one that does, as long as no fault is raised but
an overflow of the stack. -/
def Limits.catching (limits : Limits) : Relaxation where
  tight := { limits with catchFaults := false }
  loose := { limits with catchFaults := true }
  excused fault := fault.kind ≠ .stackOverflow
  admits _ := True
  fuel_eq := rfl
  depth_le := Nat.le_refl _
  depth_excused := .inl rfl
  uncaught _ := rfl
  caught_eq hkind := by simp [Decidable.not_not.mp hkind]
  admits_of_frames _ _ := trivial
  admits_pushFrame _ _ _ := trivial
  admits_popFrame _ := trivial

/-- **Catching faults is conservative.** Take any program and any machine. If the run that does not
let the program catch faults is completed, or ends with a thrown value or an overflow of the stack,
then the run that lets it do so ends in exactly the same way, with the same value and trace, and
leaves exactly the same machine. -/
theorem catching_conservative
    (program : Program)
    (limits : Limits)
    (echo : Bool)
    (m : Machine)
    (hending : ∀ f, (program.run { limits with catchFaults := false } echo m).1 = .failed f →
      f.fault.kind = .stackOverflow) :
    program.run { limits with catchFaults := true } echo m =
      program.run { limits with catchFaults := false } echo m := by
  rcases limits.catching.run_cases program echo (m := m) trivial with ⟨f, hf, hkind⟩ | heq
  · exact absurd (hending f hf) hkind
  · exact heq

/-- Unbounded recursion inside a `try` statement overflows the stack in both runs. -/
theorem catching_conservative_overflow :
    let source := "fun f() { f(); } try { f(); } catch (e) { print e; }"
    let m := Machine.initial fun _ => 0
    ∃ program f, Program.ofText 0 source.toList true = .ok program ∧
      (program.run ⟨2, false, 100⟩ false m).1 = .failed f ∧ f.fault = .callDepth 2 ∧
      program.run ⟨2, true, 100⟩ false m = program.run ⟨2, false, 100⟩ false m := by
  intro source m
  have hrun : (Program.ofText 0 source.toList true).toOption.map
      (fun program => (program.run ⟨2, false, 100⟩ false m).1.fault?) =
        some (some (.callDepth 2)) := by
    decide +kernel
  cases hprogram : Program.ofText 0 source.toList true with
  | error errors =>
      rw [hprogram] at hrun
      cases hrun
  | ok program =>
      rw [hprogram] at hrun
      obtain ⟨f, hending, hfault⟩ := Ending.eq_failed_of_fault? (Option.some.inj hrun)
      have hconservative :=
        catching_conservative program ⟨2, false, 100⟩ false m fun f' hf' => by
          obtain rfl : f = f' := Ending.failed.inj (hending.symm.trans hf')
          rw [hfault]
          rfl
      exact ⟨program, f, rfl, hending, hfault, hconservative⟩

end Lox
