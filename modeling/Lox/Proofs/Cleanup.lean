import Lox.Proofs.Journal.Run
import Lox.Proofs.Unwinding

/-!
# Cleanup runs exactly once

A run that comes to a regular end goes through the clauses of all its `try` statements in order. So
each `try` statement that is begun and has a cleanup clause enters it once, when its other clauses
have been left and before the statement ends. Whatever was begun inside a clause has come to its
end when the clause is left, so pending cleanup clauses run from the inside to the outside.
-/

namespace Lox

section Suffixes

variable {α : Type} {a : α} {xs ys later : List α}

/-- A place in a list that was put together is a place in one of its parts. -/
theorem suffix_append_cases (h : (a :: later) <:+ xs ++ ys) :
    (∃ later', (a :: later') <:+ xs ∧ later = later' ++ ys) ∨ (a :: later) <:+ ys := by
  obtain ⟨before, hbefore⟩ := h
  rcases List.append_eq_append_iff.mp hbefore with ⟨middle, hxs, hys⟩ | ⟨middle, -, hys⟩
  · cases middle with
    | nil => exact .inr ⟨[], hys⟩
    | cons b middle =>
        obtain ⟨rfl, rfl⟩ := List.cons_eq_cons.mp hys
        exact .inl ⟨middle, ⟨before, hxs.symm⟩, rfl⟩
  · exact .inr ⟨middle, hys.symm⟩

end Suffixes

/-- The journal from the beginning of a `try` statement on, the beginning itself left out: the body
is entered and left, then the clause for thrown values if there is something for it to do, then the
cleanup clause, and the statement ends. Its signal is that of the cleanup clause unless that one
ended normally, and else the pending one. Everything begun inside a clause comes to its end there. -/
inductive CleansUp
    (body : List Stmt)
    (handler : Option CatchClause)
    (cleanup : List Stmt)
    (span : Span) :
    List Event → Prop
  | once
      {m₁ m₂ n₁ n₂ n : Machine}
      {first pending last : Signal}
      {inBody inHandler inCleanup handling later : List Event}
      (hbody : Orderly inBody)
      (hhandler : Orderly inHandler)
      (hcleanup : Orderly inCleanup)
      (hhandled : Handled handler first pending inHandler handling) :
      CleansUp body handler cleanup span
        (clauseEvents .body body m₁ inBody first n₁ ++ (handling ++
          (clauseEvents .cleanup cleanup m₂ inCleanup last n₂ ++
            .ended (.tryBlock body handler (some cleanup) span) (pending.overriddenBy last) n ::
              later)))

namespace Event

/-- A cleanup clause is entered. -/
def entersCleanup : Event → Bool
  | opened .cleanup _ _ => true
  | _ => false

/-- A `try` statement with a cleanup clause is begun. -/
def beginsGuarded : Event → Bool
  | began (.execute (.tryBlock _ _ (some _) _)) _ => true
  | _ => false

end Event

section Clauses

variable {body cleanup : List Stmt} {handler : Option CatchClause} {span : Span}
variable {q : Question} {n : Machine} {inside journal later : List Event}

theorem CleansUp.append
    (h : CleansUp body handler cleanup span journal)
    (later : List Event) :
    CleansUp body handler cleanup span (journal ++ later) := by
  cases h with
  | once hbody hhandler hcleanup hhandled =>
      simp only [List.append_assoc, List.cons_append]
      exact .once hbody hhandler hcleanup hhandled

/-- What was begun among the events of a clause was begun inside the clause. -/
theorem suffix_clauseEvents
    {clause : Clause}
    {statements : List Stmt}
    {m m' : Machine}
    {signal : Signal}
    (h : (.began q n :: later) <:+ clauseEvents clause statements m inside signal m') :
    ∃ later' last, (.began q n :: later') <:+ inside ∧ later = later' ++ last := by
  rcases List.suffix_cons_iff.mp h with heq | h
  · cases heq
  · rcases suffix_append_cases h with ⟨later', h, hlater⟩ | h
    · exact ⟨later', _, h, hlater⟩
    · simp [List.suffix_cons_iff] at h

theorem Handled.suffix
    {handler : Option CatchClause}
    {first pending : Signal}
    (hhandled : Handled handler first pending inside journal)
    (h : (.began q n :: later) <:+ journal) :
    ∃ later' last, (.began q n :: later') <:+ inside ∧ later = later' ++ last := by
  cases hhandled with
  | entered => exact suffix_clauseEvents h
  | passed => simp at h

theorem Cleaned.suffix
    {cleanup : Option (List Stmt)}
    {pending signal : Signal}
    (hcleaned : Cleaned cleanup pending signal inside journal)
    (h : (.began q n :: later) <:+ journal) :
    ∃ later' last, (.began q n :: later') <:+ inside ∧ later = later' ++ last := by
  cases hcleaned with
  | entered => exact suffix_clauseEvents h
  | absent => simp at h

/-- In an orderly journal, every `try` statement with a cleanup clause goes through that clause. -/
theorem Orderly.cleansUp
    (h : Orderly journal)
    (hbegan : (.began (.execute (.tryBlock body handler (some cleanup) span)) n :: later) <:+
      journal) :
    CleansUp body handler cleanup span later := by
  induction h generalizing later with
  | nil => simp at hbegan
  | plain he _ ih =>
      rcases List.suffix_cons_iff.mp hbegan with heq | hbegan
      · obtain ⟨rfl, -⟩ := List.cons_eq_cons.mp heq
        exact absurd he nofun
      · exact ih hbegan
  | attempt hbody hhandler hcleanup hhandled hcleaned _ ihBody ihHandler ihCleanup ihRest =>
      rcases List.suffix_cons_iff.mp hbegan with heq | hbegan
      · cases heq
        cases hcleaned with
        | entered => exact .once hbody hhandler hcleanup hhandled
      -- else the statement was begun inside one of the clauses or afterwards
      rcases suffix_append_cases hbegan with ⟨_, hclause, rfl⟩ | hbegan
      · obtain ⟨later', last, hinside, rfl⟩ := suffix_clauseEvents hclause
        exact ((ihBody hinside).append last).append _
      rcases suffix_append_cases hbegan with ⟨_, hclause, rfl⟩ | hbegan
      · obtain ⟨later', last, hinside, rfl⟩ := hhandled.suffix hclause
        exact ((ihHandler hinside).append last).append _
      rcases suffix_append_cases hbegan with ⟨_, hclause, rfl⟩ | hbegan
      · obtain ⟨later', last, hinside, rfl⟩ := hcleaned.suffix hclause
        exact ((ihCleanup hinside).append last).append _
      rcases List.suffix_cons_iff.mp hbegan with heq | hbegan
      · cases heq
      · exact ihRest hbegan

theorem Handled.countP_entersCleanup
    {handler : Option CatchClause}
    {first pending : Signal}
    (h : Handled handler first pending inside journal)
    (hinside : inside.countP Event.entersCleanup = inside.countP Event.beginsGuarded) :
    journal.countP Event.entersCleanup = journal.countP Event.beginsGuarded := by
  cases h with
  | entered => simp [clauseEvents, Event.entersCleanup, Event.beginsGuarded, hinside]
  | passed => rfl

theorem Orderly.countP_entersCleanup (h : Orderly journal) :
    journal.countP Event.entersCleanup = journal.countP Event.beginsGuarded := by
  induction h with
  | nil => rfl
  | @plain e journal he _ ih =>
      have henters : e.entersCleanup = false := by
        unfold Event.entersCleanup
        split
        · exact he.elim
        · rfl
      have hbegins : e.beginsGuarded = false := by
        unfold Event.beginsGuarded
        split
        · exact he.elim
        · rfl
      simp [henters, hbegins, ih]
  | attempt _ _ _ hhandled hcleaned _ ihBody ihHandler ihCleanup ih =>
      have hhandling := hhandled.countP_entersCleanup ihHandler
      cases hcleaned with
      | entered =>
          simp [clauseEvents, List.countP_cons, Event.entersCleanup, Event.beginsGuarded, ihBody,
            ihCleanup, hhandling, ih]
          omega
      | absent =>
          simp [clauseEvents, Event.entersCleanup, Event.beginsGuarded, ihBody, hhandling, ih]

end Clauses

/-- A run that is completed, or ends with a thrown value, was not cut short. -/
theorem Program.isTame_recorded
    {program : Program}
    {limits : Limits}
    {echo : Bool}
    {m : Machine}
    (hfailed : ∀ f, (program.run limits echo m).1 ≠ .failed f)
    (hfinished : (program.run limits echo m).1 ≠ .unfinished) :
    (program.recorded limits echo m).1.IsTame limits.catchFaults := by
  rw [program.recorded_outcome]
  simp only [Program.run] at hfailed hfinished
  split at hfailed
  · next h => simp [h, Outcome.IsTame]
  · next h => simp [h, Outcome.IsTame]
  · next h => simp [h, Outcome.IsTame]
  · exact absurd rfl (hfailed _)
  · exact absurd rfl (hfailed _)
  · next h => simp [h] at hfinished

/-- **Cleanup runs exactly once.** Take any run of a program in a session, after any sources and
with any options, that ends neither with a fault nor for lack of fuel. Its journal, which is that
of the very run, is orderly. Each `try` statement with a cleanup clause goes through this clause
from the moment when it is begun, and enters it at no other time: there are as many entries as
there are such statements. -/
theorem cleanup_runs_once
    (options : Options)
    (fuel : Nat)
    (terminal : Bool)
    (sources : SourceMap)
    (clock : Nat → Float)
    (inputs : List (String × String × Bool))
    (program : Program)
    (echo : Bool)
    (hfailed :
      let s := (Session.new options fuel terminal sources clock).after inputs
      ∀ f, (program.run s.limits echo s.machine).1 ≠ .failed f)
    (hfinished :
      let s := (Session.new options fuel terminal sources clock).after inputs
      (program.run s.limits echo s.machine).1 ≠ .unfinished) :
    let s := (Session.new options fuel terminal sources clock).after inputs
    let journal := program.journal s.limits echo s.machine
    (program.recorded s.limits echo s.machine).1 =
      Eval.runStatements (.ofRoom s.limits (Evaluator.roomFor s.limits.maxCallDepth)) echo
        program.statements s.machine ∧
    Orderly journal ∧
    (∀ body handler cleanup span n later,
      (.began (.execute (.tryBlock body handler (some cleanup) span)) n :: later) <:+ journal →
        CleansUp body handler cleanup span later) ∧
    journal.countP Event.entersCleanup = journal.countP Event.beginsGuarded := by
  intro s journal
  have horderly : Orderly journal :=
    (program.accounted s.limits echo s.machine).orderly rfl
      (Program.isTame_recorded hfailed hfinished)
  exact ⟨program.recorded_outcome s.limits echo s.machine, horderly,
    fun _ _ _ _ _ _ hbegan => horderly.cleansUp hbegan, horderly.countP_entersCleanup⟩

theorem cleanup_runs_once_return :
    let source := "fun f() { try { return true; } finally { print false; } } f();"
    let s := (Session.new .default 100 false (.empty "" false) fun _ => 0).after []
    ∃ program, Program.ofText 0 source.toList true = .ok program ∧
      (program.run s.limits false s.machine).1 = .completed ∧
      Orderly (program.journal s.limits false s.machine) := by
  intro source s
  have hrun : (Program.ofText 0 source.toList true).toOption.map
      (fun program => (program.run s.limits false s.machine).1) = some .completed := by
    decide +kernel
  cases hprogram : Program.ofText 0 source.toList true with
  | error errors =>
      rw [hprogram] at hrun
      cases hrun
  | ok program =>
      rw [hprogram] at hrun
      have hending : (program.run s.limits false s.machine).1 = .completed :=
        Option.some.inj hrun
      have horderly := cleanup_runs_once .default 100 false (.empty "" false) (fun _ => 0) []
        program false (fun f hfailed => nomatch hending.symm.trans hfailed)
        (fun hfinished => nomatch hending.symm.trans hfinished)
      exact ⟨program, rfl, hending, horderly.2.1⟩

end Lox
