import Lox.Proofs.Journal.Run
import Lox.Proofs.Unwinding

/-!
# What becomes of faults

A fault either ends the run on the spot or ends the innermost statement with a thrown value. Which
of the two it is depends on the settings and on the kind of the fault only, and neither changes
anything that the program can see.
-/

namespace Lox

namespace Event

/-- The statements that are open after an event, the innermost one first. -/
def openAfter (stack : List Stmt) : Event → List Stmt
  | began (.execute s) _ => s :: stack
  | ended .. => stack.tail
  | _ => stack

theorem openAfter_of_isNeutral {e : Event} (he : e.IsNeutral) (stack : List Stmt) :
    e.openAfter stack = stack := by
  cases e with
  | began q m =>
      cases q with
      | execute s => exact he.elim
      | evaluate | run => rfl
  | ended | raised => exact he.elim
  | opened | closed => rfl

end Event

/-- The statements that were begun in the journal and have not ended, the innermost one first. -/
def openStatements (journal : List Event) : List Stmt :=
  journal.foldl (fun stack e => e.openAfter stack) []

section Courses

variable {catchFaults : Bool} {stack stack' : List Stmt} {before later : List Event}
variable {fault : Fault} {n : Machine}

/-- What is raised in the course of a run ends the innermost statement. -/
theorem Course.converts
    (h : Course catchFaults stack (before ++ .raised fault n :: later) stack') :
    fault.IsCaught catchFaults ∧ ∃ stmt t n' rest,
      (before.foldl (fun stack e => e.openAfter stack) stack).head? = some stmt ∧
      later = .ended stmt (.thrown t) n' :: rest ∧
      t.payload = .string fault.message ∧ n.SameStore n' := by
  generalize hjournal : before ++ .raised fault n :: later = journal at h
  induction h generalizing before with
  | nil => simp at hjournal
  | neutral he _ ih =>
      rcases List.append_eq_cons_iff.mp hjournal with ⟨-, heq⟩ | ⟨before, rfl, heq⟩
      · obtain ⟨rfl, -⟩ := List.cons_eq_cons.mp heq
        exact he.elim
      · simpa [Event.openAfter_of_isNeutral he] using ih heq.symm
  | began _ ih =>
      rcases List.append_eq_cons_iff.mp hjournal with ⟨-, heq⟩ | ⟨before, rfl, heq⟩
      · cases heq
      · exact ih heq.symm
  | ended _ ih =>
      rcases List.append_eq_cons_iff.mp hjournal with ⟨-, heq⟩ | ⟨before, rfl, heq⟩
      · cases heq
      · exact ih heq.symm
  | @converted _ _ s _ t _ n' rest hcaught hpayload hstore _ ih =>
      rcases List.append_eq_cons_iff.mp hjournal with ⟨rfl, heq⟩ | ⟨before, rfl, heq⟩
      · cases heq
        exact ⟨hcaught, s, t, n', rest, rfl, rfl, hpayload, hstore⟩
      · -- the end of the statement is no fault
        rcases List.append_eq_cons_iff.mp heq.symm with ⟨-, hend⟩ | ⟨before, rfl, hrest⟩
        · cases hend
        · exact ih hrest.symm

end Courses

section Runs

variable {limits : Limits} {echo : Bool} {m : Machine}

/-- Printing the value of an expression statement is never cut short. -/
theorem Eval.echoValue_done (s : Stmt) (m : Machine) : ∃ n, echoValue s m = .done () n := by
  cases s with
  | expression e span => exact ⟨_, rfl⟩
  | print | declare | block | ifElse | whileLoop | doWhile | forLoop | breakLoop | continueLoop
  | function | returnValue | classDecl | tryBlock | throwValue | dump => exact ⟨m, rfl⟩

/-- A run that the program could go on from has come to its end. -/
theorem Recorder.Accounted.done_runStatements
    {catchFaults : Bool}
    {R : Recorder}
    (hR : R.Accounted catchFaults)
    (statements : List Stmt)
    (m : Machine)
    (htame : (Recorded.runStatements R echo statements m).1.IsTame catchFaults) :
    ∃ t n, (Recorded.runStatements R echo statements m).1 = .done t n := by
  induction statements generalizing m with
  | nil => exact ⟨none, m, rfl⟩
  | cons s rest ih =>
      simp only [Recorded.runStatements] at htame ⊢
      obtain ⟨signal, n, hs⟩ := hR.settled s m (Recorded.isTame_of_bind htame)
      rw [Recorded.bind_done hs] at htame ⊢
      cases signal with
      | thrown t => exact ⟨some t, n, rfl⟩
      | normal | returned | broke | continued =>
          cases echo with
          | false => exact ih n htame
          | true =>
              obtain ⟨n', hecho⟩ := Eval.echoValue_done s n
              have hdone : (Recorded.own (Eval.echoValue s) n).1 = .done () n' := hecho
              simp only [if_true, Recorded.bind_done hdone] at htame ⊢
              exact ih n' htame

/-- A run ends with a fault if and only if its journal does, and such a fault is never caught. -/
theorem Program.journal_cases (program : Program) (limits : Limits) (echo : Bool) (m : Machine) :
    let run := program.run limits echo m
    let journal := program.journal limits echo m
    ((∃ stack, Course limits.catchFaults [] journal stack) ∧ ∀ f, run.1 ≠ .failed f) ∨
    ∃ before f n, journal = before ++ [.raised f.fault n] ∧
      (∃ stack, Course limits.catchFaults [] before stack) ∧
      run.1 = .failed f ∧ ¬f.fault.IsCaught limits.catchFaults ∧ n.SameStore run.2 := by
  intro run journal
  obtain ⟨before, n, hjournal, hstore, hcourse⟩ := (program.accounted limits echo m).course
  obtain ⟨stack, hstack, -⟩ := hcourse []
  obtain ⟨hrun, hending⟩ := program.sameStore_run limits echo m
  cases hfault : (program.recorded limits echo m).1.fault? with
  | none =>
      refine .inl ⟨⟨stack, ?_⟩, fun f hf => ?_⟩
      · have hbefore : journal = before := by simpa [Outcome.raised, hfault] using hjournal
        exact hbefore ▸ hstack
      · have hsome := (hending f.fault).mpr ⟨f, hf, rfl⟩
        rw [hfault] at hsome
        cases hsome
  | some fault =>
      obtain ⟨f, hf, rfl⟩ := (hending fault).mp hfault
      refine .inr ⟨before, f, n, ?_, ⟨stack, hstack⟩, hf, fun hcaught => ?_, hstore.trans hrun⟩
      · simpa [Outcome.raised, hfault] using hjournal
      · -- if it were caught, a statement would have caught it
        have htame : (program.recorded limits echo m).1.IsTame limits.catchFaults := by
          cases ho : (program.recorded limits echo m).1 with
          | done t n => trivial
          | stopped why n =>
              rw [ho] at hfault
              cases why with
              | thrown t => trivial
              | failed f' =>
                  obtain heq : f'.fault = f.fault := Option.some.inj hfault
                  simpa only [Outcome.IsTame, heq] using hcaught
              | exhausted =>
                  obtain heq : Fault.hostDepth = f.fault := Option.some.inj hfault
                  exact absurd (heq ▸ rfl) hcaught.2
              | outOfFuel => cases hfault
        obtain ⟨t, n', hdone⟩ :=
          (Recorder.accounted_ofRoom limits _).done_runStatements program.statements m htame
        have hnone : (program.recorded limits echo m).1.fault? = none :=
          congrArg Outcome.fault? hdone
        rw [hfault] at hnone
        cases hnone

/-- What a run of a program can end with. -/
theorem Program.run_cases (program : Program) (limits : Limits) (echo : Bool) (m : Machine) :
    let ending := (program.run limits echo m).1
    ending = .completed ∨ (∃ t text, ending = .uncaught t text) ∨ (∃ f, ending = .failed f) ∨
      ending = .unfinished := by
  simp only [Program.run]
  split
  · exact .inl rfl
  · exact .inr (.inl ⟨_, _, rfl⟩)
  · exact .inr (.inl ⟨_, _, rfl⟩)
  · exact .inr (.inr (.inl ⟨_, rfl⟩))
  · exact .inr (.inr (.inl ⟨_, rfl⟩))
  · exact .inr (.inr (.inr rfl))

/-- A fault is caught by the innermost open statement, or it is what the run ends with. -/
theorem Program.raised_cases
    {program : Program}
    {limits : Limits}
    {before later : List Event}
    {fault : Fault}
    {n : Machine}
    (hraised : program.journal limits echo m = before ++ .raised fault n :: later) :
    (fault.IsCaught limits.catchFaults ∧ ∃ stmt t n' rest,
      (openStatements before).head? = some stmt ∧ later = .ended stmt (.thrown t) n' :: rest ∧
      t.payload = .string fault.message ∧ n.SameStore n') ∨
    (¬fault.IsCaught limits.catchFaults ∧ later = [] ∧
      (∃ f, (program.run limits echo m).1 = .failed f ∧ f.fault = fault) ∧
      n.SameStore (program.run limits echo m).2) := by
  rcases program.journal_cases limits echo m with
    ⟨⟨stack, hcourse⟩, -⟩ | ⟨before', f, n', hjournal, ⟨stack, hcourse⟩, hf, hcaught, hstore⟩
  · exact .inl (Course.converts (hraised ▸ hcourse))
  · rw [hraised] at hjournal
    rcases List.eq_nil_or_concat later with rfl | ⟨later, last, rfl⟩
    · obtain ⟨rfl, hlast⟩ := List.append_inj' hjournal rfl
      cases hlast
      exact .inr ⟨hcaught, rfl, ⟨f, hf, rfl⟩, hstore⟩
    · -- it is not the last event
      rw [List.concat_eq_append, ← List.cons_append, ← List.append_assoc] at hjournal
      obtain ⟨rfl, -⟩ := List.append_inj' hjournal rfl
      obtain ⟨hcaught, stmt, t, n', rest, hopen, rfl, hpayload, hstore⟩ := hcourse.converts
      exact .inl ⟨hcaught, stmt, t, n', rest ++ [last], hopen, by simp, hpayload, hstore⟩

end Runs

/-- **Faults.** Take any run of a program in a session, after any sources and with any options.
Whenever a fault is raised, there are two possibilities. If faults are caught and it is no overflow
of the stack, the innermost open statement ends at once with a thrown value, whose payload is the
message of the fault, and nothing else changes. Otherwise nothing more happens at all: the run ends
with this fault, and leaves the machine as it was but for the current scope and the active calls.
All runs that fail do so in this way. So if faults are caught, a run is completed, ends with a
thrown value or an overflow of the stack, or does not come to an end. -/
theorem faults_end_or_convert
    (options : Options)
    (fuel : Nat)
    (terminal : Bool)
    (sources : SourceMap)
    (clock : Nat → Float)
    (inputs : List (String × String × Bool))
    (program : Program)
    (echo : Bool) :
    let s := (Session.new options fuel terminal sources clock).after inputs
    let run := program.run s.limits echo s.machine
    let journal := program.journal s.limits echo s.machine
    (program.recorded s.limits echo s.machine).1 =
      Eval.runStatements (.ofRoom s.limits (Evaluator.roomFor s.limits.maxCallDepth)) echo
        program.statements s.machine ∧
    (∀ before fault n later, journal = before ++ .raised fault n :: later →
      (options.catchFaults = true ∧ fault.kind ≠ .stackOverflow ∧ ∃ stmt t n' rest,
        (openStatements before).head? = some stmt ∧
        later = .ended stmt (.thrown t) n' :: rest ∧
        t.payload = .string fault.message ∧
        n' = { n with current := n'.current, frames := n'.frames }) ∨
      ((options.catchFaults = false ∨ fault.kind = .stackOverflow) ∧ later = [] ∧
        (∃ f, run.1 = .failed f ∧ f.fault = fault) ∧
        run.2 = { n with current := Machine.globalScope, frames := [] })) ∧
    (∀ f, run.1 = .failed f → ∃ before n, journal = before ++ [.raised f.fault n]) ∧
    (options.catchFaults = true →
      run.1 = .completed ∨ (∃ t text, run.1 = .uncaught t text) ∨
      (∃ f, run.1 = .failed f ∧ f.fault.kind = .stackOverflow) ∨ run.1 = .unfinished) := by
  intro s run journal
  have hcatch : s.limits.catchFaults = options.catchFaults :=
    congrArg Options.catchFaults (Session.options_after inputs _)
  have htop : run.2.AtTop :=
    program.atTop_run s.limits echo (Session.atTop_after inputs _ (Machine.atTop_initial clock))
  refine ⟨program.recorded_outcome s.limits echo s.machine,
    fun before fault n later hraised => ?_, fun f hf => ?_, fun hcatching => ?_⟩
  · rcases Program.raised_cases hraised with
      ⟨⟨hcatching, hkind⟩, stmt, t, n', rest, hopen, hlater, hpayload, hstore⟩ |
      ⟨hcaught, hlater, hf, hstore⟩
    · exact .inl ⟨hcatch ▸ hcatching, hkind, stmt, t, n', rest, hopen, hlater, hpayload, hstore⟩
    · refine .inr ⟨?_, hlater, hf, ?_⟩
      · rw [Fault.IsCaught, hcatch] at hcaught
        by_cases hcatching : options.catchFaults = true
        · exact .inr (by simpa [hcatching] using hcaught)
        · exact .inl (by simpa using hcatching)
      · rw [← htop.1, ← htop.2]
        exact hstore
  · rcases program.journal_cases s.limits echo s.machine with
      ⟨-, hnever⟩ | ⟨before, f', n, hjournal, -, hf', -⟩
    · exact absurd hf (hnever f)
    · obtain rfl : f' = f := Ending.failed.inj (hf'.symm.trans hf)
      exact ⟨before, n, hjournal⟩
  · rcases program.run_cases s.limits echo s.machine with h | h | ⟨f, hf⟩ | h
    · exact .inl h
    · exact .inr (.inl h)
    · rcases program.journal_cases s.limits echo s.machine with
        ⟨-, hnever⟩ | ⟨before, f', n, -, -, hf', hcaught, -⟩
      · exact absurd hf (hnever f)
      · refine .inr (.inr (.inl ⟨f', hf', ?_⟩))
        rw [Fault.IsCaught, hcatch] at hcaught
        simpa [hcatching] using hcaught
    · exact .inr (.inr (.inr h))

end Lox
