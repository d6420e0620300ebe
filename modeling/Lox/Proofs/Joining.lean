import Lox.Proofs.Parse.Joining
import Lox.Proofs.Parse.Program
import Lox.Proofs.Places.Run

/-!
# Sources one after the other

A source, a line feed and another source are read to the statements of both, and run as the one
source is run after the other. That the texts are read apart is `Program.ofText_append`; that the
places of the code, by which alone the statements then differ, do not matter to a run is
`Program.run_relocated`, applied to the relocation that forgets all places.
-/

namespace Lox

open Relocation

/-- Programs with the same statements but for their places do the same but for places. -/
theorem Program.run_erased
    {statements others : List Stmt}
    (h : move erasure statements = move erasure others)
    (limits : Limits)
    (echo : Bool)
    (m : Machine) :
    move erasure (Program.run ⟨statements⟩ limits echo m) =
      move erasure (Program.run ⟨others⟩ limits echo m) := by
  rw [← Program.run_relocated, ← Program.run_relocated, h]

/-- What is left of the outcome of a run without places still has the output and the scopes. -/
theorem Program.same_of_erased
    {o o' : Ending × Machine}
    (h : move erasure o = move erasure o') :
    o.2.output = o'.2.output ∧ o.2.scopes = o'.2.scopes := by
  have houtput := congrArg (fun answer : Ending × Machine => answer.2.output) h
  have hscopes := congrArg (fun answer : Ending × Machine => answer.2.scopes) h
  exact ⟨houtput, hscopes⟩

/-- Joining sources is running them in sequence. If both are accepted, so is the first one followed
by a line feed and the second one; its statements are those of the first and those of the second,
the spans of which begin as much further on as the first text and the line feed are long. On every
machine the joined program does what the two do one after the other, provided that the first one is
completed: it prints the same, and leaves the same bindings and, but for the places that functions
and ends keep, the same machine with the same end. The sources may be registered under any
numbers. -/
theorem join_sources
    {file₁ file₂ : Nat}
    {text more : List Char}
    {collectAll : Bool}
    {first second : Program}
    (hfirst : Program.ofText file₁ text collectAll = .ok first)
    (hsecond : Program.ofText file₂ more collectAll = .ok second)
    (file : Nat) :
    ∃ joined, Program.ofText file (text ++ '\n' :: more) collectAll = .ok joined ∧
      (file₁ = file → file₂ = file →
        joined.statements = first.statements ++
          move (.shift (text.length + 1) (Position.first.after text).line) second.statements) ∧
      ∀ limits echo m, (first.run limits echo m).1 = .completed →
        let apart := second.run limits echo (first.run limits echo m).2
        let together := joined.run limits echo m
        together.2.output = apart.2.output ∧
          together.2.scopes = apart.2.scopes ∧
          move erasure together = move erasure apart := by
  have hjoined := Program.ofText_append (Program.ofText_exchange hfirst file)
    (Program.ofText_exchange hsecond file)
  refine ⟨_, hjoined, ?_, fun limits echo m hcompleted => ?_⟩
  · rintro rfl rfl
    have hsame {source : List Char} {program : Program}
        (h : Program.ofText file₂ source collectAll = .ok program) :
        move (exchange file₂ file₂) program.statements = program.statements :=
      congrArg Program.statements (Except.ok.inj ((Program.ofText_exchange h file₂).symm.trans h))
    rw [hsame hfirst, hsame hsecond]
  · have hplaces : move erasure
        (move (exchange file₁ file) first.statements ++
          move (shift (text.length + 1) (Position.first.after text).line)
            (move (exchange file₂ file) second.statements)) =
        move erasure (first.statements ++ second.statements) := by
      have h₁ := erasure_move (exchange file₁ file) first.statements
      have h₂ := (erasure_move (shift (text.length + 1) (Position.first.after text).line)
        (move (exchange file₂ file) second.statements)).trans
          (erasure_move (exchange file₂ file) second.statements)
      simp only [List.move_eq, List.map_append] at h₁ h₂ ⊢
      rw [h₁, h₂]
    have hrun := Program.run_erased hplaces limits echo m
    rw [Program.run_append second.statements hcompleted] at hrun
    obtain ⟨houtput, hscopes⟩ := Program.same_of_erased hrun
    exact ⟨houtput, hscopes, hrun⟩

theorem join_sources_call :
    ∃ first second joined,
      Program.ofText 1 "fun f() \x7b print nil; \x7d".toList true = .ok first ∧
        Program.ofText 2 "f();".toList true = .ok second ∧
        Program.ofText 3 "fun f() \x7b print nil; \x7d\nf();".toList true = .ok joined ∧
        let m := Machine.initial fun _ => 0
        let limits : Limits := ⟨1, false, 0⟩
        move erasure (joined.run limits false m) =
          move erasure (second.run limits false (first.run limits false m).2) := by
  obtain ⟨first, hfirst⟩ : ∃ first, Program.ofText 1 "fun f() \x7b print nil; \x7d".toList true = .ok first :=
    Program.exists_of_isOk (by decide +kernel)
  obtain ⟨second, hsecond⟩ : ∃ second, Program.ofText 2 "f();".toList true = .ok second :=
    Program.exists_of_isOk (by decide +kernel)
  have hcompleted : (first.run ⟨1, false, 0⟩ false (Machine.initial fun _ => 0)).1 = .completed := by
    have h : (Program.ofText 1 "fun f() \x7b print nil; \x7d".toList true).toOption.map
        (fun program => (program.run ⟨1, false, 0⟩ false (Machine.initial fun _ => 0)).1) =
          some .completed := by
      decide +kernel
    rw [hfirst] at h
    exact Option.some.inj h
  obtain ⟨joined, hjoined, -, hrun⟩ := join_sources hfirst hsecond 3
  obtain ⟨-, -, hsame⟩ := hrun ⟨1, false, 0⟩ false (Machine.initial fun _ => 0) hcompleted
  exact ⟨first, second, joined, hfirst, hsecond, hjoined, hsame⟩

end Lox
