import Lox.Proofs.Congruence
import Lox.Proofs.Simulation.Bracket

/-!
# Every label has a caption

A fault is labelled with its message where it becomes known, if it was not labelled before, and where
it is raised at a known place it has a caption of its own. So no label of a failure is without a
caption, and neither is the label of anything else that is reported.
-/

namespace Lox

section Texts

theorem Misplaced.message_ne (construct : Misplaced) : construct.message ≠ "" := by
  cases construct <;> decide

theorem LexFault.caption_ne (cause : LexFault) : cause.caption ≠ "" := by
  cases cause with
  | unexpectedCharacter c => exact append_ne_empty_right (by decide)
  | unterminatedString | unterminatedComment => decide

theorem ParseError.caption_ne (e : ParseError) : e.caption ≠ "" := by
  unfold caption
  split
  · exact append_ne_empty_right (by decide)
  · decide
  · decide
  · exact Misplaced.message_ne _
  · exact append_ne_empty_right (by decide)
  · decide

end Texts

namespace Eval

/-- However the computation stops, no label is without a caption. -/
def Captioned {α : Type} (c : Eval α) : Prop :=
  ∀ m f n, c m = .stopped (.failed f) n → f.IsCaptioned

namespace Captioned

variable {α β : Type} {c : Eval α}

theorem elementary (hc : c.Elementary Machine.SameFrames) : Captioned c :=
  fun m f n h => (hc.bare m (.failed f) n h).2

theorem throw (t : Thrown) : Captioned (Eval.stop (.thrown t) : Eval α) := by
  rintro m f n ⟨⟩

theorem bind {f : α → Eval β} (hc : Captioned c) (hf : ∀ a, Captioned (f a)) :
    Captioned (c >>= f) := by
  intro m failure n h
  rw [bind_apply] at h
  cases hm : c m with
  | done a n' =>
      rw [hm] at h
      exact hf a n' failure n h
  | stopped why n' =>
      rw [hm] at h
      cases h
      exact hc m failure n hm

theorem locating (hc : Captioned c) (span : Span) : Captioned (Eval.locating span c) := by
  intro m f n h
  unfold Eval.locating at h
  split at h
  · next f' n' hm =>
      cases h
      exact Failure.isCaptioned_locate (hc m _ _ hm) span
  · exact hc m f n h

theorem settle
    {c : Eval Signal}
    (hc : Captioned c)
    (catchFaults : Bool)
    (span : Span) :
    Captioned (Eval.settle catchFaults span c) := by
  intro m f n h
  simp only [Eval.settle] at h
  split at h
  · cases h
  · cases h
  · next f' n' hm =>
      split at h
      · cases h
      · cases h
        have hlocated := Failure.isCaptioned_locate (hc m _ _ hm) span
        simp only [Failure.attachTrace]
        split <;> exact hlocated
  · cases h
  · cases h

/-- A change of the machine on the way out. -/
theorem around
    {m n : Machine}
    {outward : Machine → Machine}
    {f : Failure}
    (hc : Captioned c)
    (h : (c m).onMachine outward = .stopped (.failed f) n) :
    f.IsCaptioned := by
  cases ho : c m with
  | done a n' =>
      rw [ho] at h
      cases h
  | stopped why n' =>
      rw [ho] at h
      cases h
      exact hc _ _ _ ho

end Captioned

/-- That no label is without a caption is passed on by all that computations are built from. -/
theorem congruence_captioned (limits : Limits) :
    Congruence limits limits fun c _ => Captioned c where
  fuel_eq := rfl
  elementary := .elementary
  throw := .throw
  bind := .bind
  inNewScope parent bindings hc m f n h := by
    rw [inNewScope_apply] at h
    exact hc.around h
  enterCall frame hc := by
    refine .bind (.elementary (.ask _)) fun active => ?_
    split
    · exact .elementary (.fail _)
    · intro m f n h
      rw [inCall_apply] at h
      exact hc.around h
  locating span hc := hc.locating span
  settle span hc := hc.settle limits.catchFaults span

end Eval

/-- The evaluator for any room labels nothing without a caption. -/
theorem Evaluator.captioned_ofRoom (limits : Limits) (room : Nat) :
    Related (fun c _ => c.Captioned) (ofRoom limits room) (ofRoom limits room) := by
  induction room with
  | zero =>
      have hstop {α : Type} : Eval.Captioned (Eval.stop .exhausted : Eval α) :=
        .elementary (.stop trivial)
      exact ⟨fun _ => hstop, fun _ => hstop, fun _ => hstop⟩
  | succ room ih => exact (Eval.congruence_captioned limits).tie ih

/-- A run that fails, other than for lack of room, fails with a caption to its label. -/
theorem Program.captioned_of_failed
    {program : Program} {limits : Limits} {echo : Bool} {m : Machine} {f : Failure}
    (h : (program.run limits echo m).1 = .failed f) :
    f.IsCaptioned := by
  have hroom := Evaluator.captioned_ofRoom limits (Evaluator.roomFor limits.maxCallDepth)
  have hrun := (Eval.congruence_captioned limits).runStatements hroom echo program.statements
  simp only [Program.run] at h
  split at h
  · cases h
  · cases h
  · cases h
  · next hstopped =>
      cases h
      exact hrun m _ _ hstopped
  · cases h
    nofun
  · cases h

end Lox
