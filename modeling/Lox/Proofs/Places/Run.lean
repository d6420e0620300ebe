import Lox.Proofs.Agreement
import Lox.Proofs.Places.Step

/-!
# Running relocated programs

A relocated program, run on a relocated machine, ends as the program does on the machine, relocated;
and running two programs one after the other is running the statements of both as one program, if
the first one is completed.
-/

namespace Lox

instance : Relocatable Ending :=
  ⟨fun r ending =>
    match ending with
    | .failed f => .failed (move r f)
    | .uncaught t text => .uncaught (move r t) text
    | ending => ending⟩

section Relocated

variable {r : Relocation} {g : Evaluator}

theorem Relocates.echoValue (s : Stmt) :
    Relocates r (Eval.echoValue s) (Eval.echoValue (s.relocate r)) := by
  cases s with
  | expression e span =>
      refine (ask (q := fun m => m.text m.lastValue) fun m =>
        Machine.text_move r m m.lastValue).bind fun text => ?_
      exact printLine text
  | _ => exact pure rfl

theorem Relocates.runStatements (hg : g.Relocates r) (echo : Bool) (statements : List Stmt) :
    Relocates r (Eval.runStatements g echo statements)
      (Eval.runStatements g echo (move r statements)) := by
  induction statements with
  | nil => exact pure rfl
  | cons s statements ih =>
      refine (hg.execute s).bind fun signal => ?_
      have hrest : Relocates r
          (do
            if echo then Eval.echoValue s
            Eval.runStatements g echo statements)
          (do
            if echo then Eval.echoValue (s.relocate r)
            Eval.runStatements g echo (move r statements)) := by
        cases echo with
        | true => exact (echoValue s).bind fun _ => ih
        | false => exact ih
      cases signal with
      | thrown t => exact pure rfl
      | _ => exact hrest

/-- A relocated program does on a relocated machine what the program does on the machine. -/
theorem Program.run_relocated
    (r : Relocation)
    (statements : List Stmt)
    (limits : Limits)
    (echo : Bool)
    (m : Machine) :
    Program.run ⟨move r statements⟩ limits echo (move r m) =
      move r (Program.run ⟨statements⟩ limits echo m) := by
  have h := Relocates.runStatements
    (Evaluator.ofRoom_relocates r limits (Evaluator.roomFor limits.maxCallDepth)) echo statements m
  simp only [Program.run, h]
  generalize Eval.runStatements _ echo statements m = outcome
  match outcome with
  | .done none m => rfl
  | .done (some t) m =>
      exact congrArg (fun text => (Ending.uncaught (move r t) text, move r m))
        (Machine.text_move r m t.payload)
  | .stopped (.thrown t) m =>
      exact congrArg (fun text => (Ending.uncaught (move r t) text, move r m))
        (Machine.text_move r m t.payload)
  | .stopped (.failed f) m => rfl
  | .stopped .exhausted m => rfl
  | .stopped .outOfFuel m => rfl

end Relocated

section Sequences

theorem Eval.runStatements_append
    (g : Evaluator)
    (echo : Bool)
    (statements others : List Stmt)
    (m : Machine) :
    runStatements g echo (statements ++ others) m =
      match runStatements g echo statements m with
      | .done none m => runStatements g echo others m
      | outcome => outcome := by
  induction statements generalizing m with
  | nil => rfl
  | cons s statements ih =>
      rw [List.cons_append, runStatements, runStatements, bind_apply, bind_apply]
      cases g.execute s m with
      | stopped why m => rfl
      | done signal m =>
          have hrest :
              (do
                if echo then
                  echoValue s
                runStatements g echo (statements ++ others)) m =
                match
                  (do
                    if echo then
                      echoValue s
                    runStatements g echo statements) m with
                | .done none m => runStatements g echo others m
                | outcome => outcome := by
            cases echo with
            | false => exact ih m
            | true =>
                change ((echoValue s >>= fun _ => runStatements g true (statements ++ others)) m) =
                  match (echoValue s >>= fun _ => runStatements g true statements) m with
                  | .done none m => runStatements g true others m
                  | outcome => outcome
                rw [bind_apply, bind_apply]
                cases echoValue s m with
                | done _ m => exact ih m
                | stopped why m => rfl
          cases signal with
          | thrown t => rfl
          | _ => exact hrest

/-- If a program is completed, the next one can be run as part of it. -/
theorem Program.run_append
    {statements : List Stmt}
    (others : List Stmt)
    {limits : Limits}
    {echo : Bool}
    {m : Machine}
    (h : (Program.run ⟨statements⟩ limits echo m).1 = .completed) :
    Program.run ⟨statements ++ others⟩ limits echo m =
      Program.run ⟨others⟩ limits echo (Program.run ⟨statements⟩ limits echo m).2 := by
  simp only [Program.run, Eval.runStatements_append] at h ⊢
  generalize Eval.runStatements _ echo statements m = outcome at h ⊢
  match outcome with
  | .done none m => rfl
  | .done (some t) m => cases h
  | .stopped (.thrown t) m => cases h
  | .stopped (.failed f) m => cases h
  | .stopped .exhausted m => cases h
  | .stopped .outOfFuel m => cases h

end Sequences

end Lox
