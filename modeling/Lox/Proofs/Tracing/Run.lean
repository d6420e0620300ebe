import Lox.Proofs.Faults
import Lox.Proofs.Tracing.Step

/-!
# Traces of whole runs

The recorder for any room is traced, and so is the run of a program that starts outside of all
calls. Every failure that such a run reports has been traced by a statement.
-/

namespace Lox

section Rooms

variable {limits : Limits} {R : Recorder}

theorem Recorder.IsTraced.deeper
    {room : Nat}
    (hR : R.IsTraced limits)
    (hroom : R.evaluator = .ofRoom limits room) :
    (Recorder.deeper limits R).IsTraced limits where
  evaluate e hm :=
    .starting nofun hm (.evaluateParts hR hroom e (hm.append _) (by simp))
  execute s hm := .executeStep hR s hm
  run body hm := .starting nofun hm (.executeAll hR body (hm.append _))

/-- The recorder for any room is traced. -/
theorem Recorder.isTraced_ofRoom (limits : Limits) (room : Nat) :
    (Recorder.ofRoom limits room).IsTraced limits := by
  induction room with
  | zero =>
      exact
        { evaluate := fun _ hm => ⟨rfl, ⟨hm, trivial⟩, trivial⟩
          execute := fun _ hm => ⟨rfl, ⟨hm, trivial⟩, trivial⟩
          run := fun _ hm => ⟨rfl, ⟨hm, trivial⟩, trivial⟩ }
  | succ room ih => exact ih.deeper (Recorder.evaluator_ofRoom limits room)

end Rooms

section Programs

variable {limits : Limits}

theorem Recorded.IsTraced.runStatements
    {R : Recorder} {before : List Event} {m : Machine}
    (hR : R.IsTraced limits)
    (echo : Bool)
    (statements : List Stmt)
    (hm : Entered limits before m.frames) :
    (Recorded.runStatements R echo statements).IsTraced limits id before m := by
  induction statements generalizing before m with
  | nil => exact plain rfl
  | cons s rest ih =>
      refine (hR.execute s hm).bind hm fun signal n journal _ _ hn hsignal => ?_
      have hrest : IsTraced limits id (before ++ journal) n
          (if echo then Recorded.own (Eval.echoValue s) >>= fun _ =>
              Recorded.runStatements R echo rest
            else Recorded.runStatements R echo rest) := by
        split
        · exact (ownValue (.echoValue s) hn).bind hn fun _ _ _ _ _ hn _ => ih hn
        · exact ih hn
      cases signal with
      | thrown t => exact pure hsignal
      | normal => exact hrest
      | returned v => exact hrest
      | broke => exact hrest
      | continued => exact hrest

/-- A statement that fails has been traced. -/
theorem Eval.trace_of_execute
    {room : Nat} {s : Stmt} {m n : Machine} {f : Failure}
    (h : (Evaluator.ofRoom limits room).execute s m = .stopped (.failed f) n) :
    f.trace ≠ [] := by
  cases room with
  | zero => cases h
  | succ room =>
      change Eval.settle limits.catchFaults s.span _ m = _ at h
      unfold Eval.settle at h
      split at h
      · cases h
      · cases h
      · next f' n' ho =>
          dsimp only at h
          split at h
          · cases h
          · cases h
            unfold Failure.attachTrace
            split
            · exact stackTrace_ne_nil _ _
            · next hne => simpa using hne
      · cases h
      · cases h

/-- A run that fails has been traced. -/
theorem Eval.trace_of_runStatements
    {room : Nat} {echo : Bool} {statements : List Stmt} {m n : Machine} {f : Failure}
    (h : runStatements (.ofRoom limits room) echo statements m = .stopped (.failed f) n) :
    f.trace ≠ [] := by
  induction statements generalizing m with
  | nil => cases h
  | cons s rest ih =>
      rw [runStatements, bind_apply] at h
      cases hs : (Evaluator.ofRoom limits room).execute s m with
      | stopped why n' =>
          rw [hs] at h
          cases h
          exact trace_of_execute hs
      | done signal n' =>
          rw [hs] at h
          have hrest
              (h : (if echo then echoValue s >>= fun _ =>
                  runStatements (.ofRoom limits room) echo rest
                else runStatements (.ofRoom limits room) echo rest) n' = .stopped (.failed f) n) :
              f.trace ≠ [] := by
            split at h
            · obtain ⟨n'', hecho⟩ := echoValue_done s n'
              rw [bind_apply, hecho] at h
              exact ih h
            · exact ih h
          cases signal with
          | thrown t => cases h
          | normal => exact hrest h
          | returned v => exact hrest h
          | broke => exact hrest h
          | continued => exact hrest h

variable (program : Program) (limits : Limits) (echo : Bool) {m : Machine}

theorem Program.isTraced (hm : m.frames = []) :
    (program.recorded limits echo).IsTraced limits id [] m :=
  .runStatements (Recorder.isTraced_ofRoom limits _) echo program.statements (hm ▸ .outside)

/-- At every event of a run, the active calls were entered before. -/
theorem Program.entered_of_journal
    (hm : m.frames = [])
    {before later : List Event} {e : Event}
    (h : program.journal limits echo m = before ++ e :: later) :
    Entered limits before e.machine.frames := by
  have hentered := (program.isTraced limits echo hm).entered
  change AllEntered limits [] (program.journal limits echo m) at hentered
  rw [h] at hentered
  simpa using hentered.at

/-- A run fails with what was raised last, and with the trace of the innermost statement that was
open then. -/
theorem Program.raised_of_failed
    (hm : m.frames = [])
    {f : Failure}
    (h : (program.run limits echo m).1 = .failed f)
    (hhost : f.fault ≠ .hostDepth) :
    ∃ before n s span caption,
      program.journal limits echo m = before ++ [.raised f.fault n] ∧
      f.label = some (span, caption) ∧ TracedAt before s span f.trace := by
  have hending := (program.isTraced limits echo hm).ending
  rw [program.recorded_outcome] at hending
  simp only [Program.run] at h
  split at h
  · cases h
  · cases h
  · cases h
  · next f' n ho =>
      cases h
      rw [ho] at hending
      cases hending with
      | bare inside n' hjournal hopen htrace =>
          exact absurd htrace (Eval.trace_of_runStatements ho)
      | traced inside n' s span caption hjournal hcaught hlabel htraced =>
          exact ⟨inside, n', s, span, caption, hjournal, hlabel, htraced⟩
  · cases h
    exact absurd rfl hhost
  · cases h

/-- A run that ends with a thrown value ends with one that has an origin. -/
theorem Program.origin_of_uncaught
    (hm : m.frames = [])
    {t : Thrown} {text : String}
    (h : (program.run limits echo m).1 = .uncaught t text) :
    t.HasOrigin (program.journal limits echo m) := by
  have hending := (program.isTraced limits echo hm).ending
  rw [program.recorded_outcome] at hending
  simp only [Program.run] at h
  split at h
  · cases h
  · next t' n ho =>
      cases h
      rw [ho] at hending
      exact hending.2 t rfl
  · next t' n ho =>
      cases h
      rw [ho] at hending
      exact hending.2
  · cases h
  · cases h
  · cases h

end Programs

end Lox
