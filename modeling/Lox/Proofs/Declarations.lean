import Lox.Proofs.Context

/-!
# Only declarations bind names

In the runs of accepted programs only declarations add or replace bindings, and only in the scope
that is current. Everything else, a call included, at most gives new values to variables.
-/

namespace Lox

/-- **Only declarations bind names.** Take any program that is accepted in a session, after any
sources and with any options. When its run executes a statement that is no declaration, no scope
from before gains, loses or replaces a binding; for a declaration this may happen to the declared
name in the current scope only. The same holds of every call of a value, on every machine. All the
while the parent of a scope is older than the scope, so following the parents comes to an end, and
a lookup needs no further condition to do so. -/
theorem only_declarations_bind
    (options : Options)
    (fuel : Nat)
    (terminal : Bool)
    (sources : SourceMap)
    (clock : Nat → Float)
    (inputs : List (String × String × Bool))
    (file : Nat)
    (text : List Char)
    (program : Program)
    (echo : Bool)
    (hprogram : Program.ofText file text options.collectAll = .ok program) :
    let s := (Session.new options fuel terminal sources clock).after inputs
    (∀ room stmt n, s.Visits program echo room (.execute stmt) n →
      let n' := ((Evaluator.ofRoom s.limits room).execute stmt n).machine
      (stmt.declared? = none → n.scopes.Kept (fun _ _ => False) n'.scopes) ∧
      (∀ x, stmt.declared? = some x →
        n.scopes.Kept (fun id name => id = n.current ∧ name = x) n'.scopes)) ∧
    (∀ room callee arguments site n,
      let n' := (Eval.callValue s.limits (.ofRoom s.limits room) callee arguments site n).machine
      n.scopes.Kept (fun _ _ => False) n'.scopes) ∧
    (∀ room q n, s.Visits program echo room q n →
      ∀ scopes, scopes = n.scopes ∨
          scopes = ((Evaluator.ofRoom s.limits room).leaves q n).scopes →
        (∀ id parent, (scopes.get id).parent = some parent → parent < id) ∧
        (WellFounded fun parent id => (scopes.get id).parent = some parent) ∧
        ∀ id name, scopes.lookup? id name =
          match (scopes.get id).find? name with
          | some b => some (id, b)
          | none => (scopes.get id).parent.bind fun parent => scopes.lookup? parent name) := by
  intro s
  have hplaced := Program.placed_of_ofText hprogram
  have hready : s.machine.Ready := Session.ready_after inputs _ (.initial clock)
  have hvisits {room : Nat} {q : Question} {n : Machine} (h : s.Visits program echo room q n) :=
    Standpoint.lawful.visits hplaced hready.suits h
  have hstart (names : String → Prop) (n : Machine) :=
    Surroundings.intact_start (.shared names) n (by simp)
  refine ⟨fun room stmt n hvisit => ⟨fun hstmt => ?_, fun x hx => ?_⟩,
    fun room callee arguments site n => ?_, fun room q n hvisit scopes hscopes => ?_⟩
  · obtain ⟨l, r, hstmtPlaced, -⟩ := hvisits hvisit
    have hend := (hstart (fun _ => False) n).execute s.limits room (s := stmt)
      fun name hname => hstmtPlaced.not_declares hstmt hname
    exact hend.scopes.mono fun id _ name h => h.2
  · exact ((hstart (· = x) n).execute s.limits room (s := stmt)
      fun name hname => hname.eq_of_declared hx).scopes
  · have hend := (hstart (fun _ => False) n).callValue s.limits room callee arguments site
    exact hend.scopes.mono fun id _ name h => h.2
  · obtain ⟨l, r, hq, hn⟩ := hvisits hvisit
    have hsound : scopes.Sound := by
      rcases hscopes with rfl | rfl
      · exact hn.sound.scopes
      · exact (Standpoint.lawful.leaves s.limits room hq hn).sound.scopes
    exact ⟨hsound.ordered, hsound.wellFounded, hsound.lookup?_eq⟩

theorem only_declarations_bind_block :
    let source := "{ var x = 1; x = 2; }"
    ∃ program, Program.ofText 0 source.toList true = .ok program ∧
      ∀ room stmt n,
        ((Session.new .default 100 false (.empty "" false) fun _ => 0).after []).Visits program
          false room (.execute stmt) n →
        stmt.declared? = none →
        n.scopes.Kept (fun _ _ => False)
          ((Evaluator.ofRoom ⟨512, false, 100⟩ room).execute stmt n).machine.scopes := by
  intro source
  obtain ⟨program, hprogram⟩ : ∃ program, Program.ofText 0 source.toList true = .ok program :=
    Program.exists_of_isOk (by decide +kernel)
  obtain ⟨hexecute, -, -⟩ := only_declarations_bind .default 100 false (.empty "" false)
    (fun _ => 0) [] 0 source.toList program false hprogram
  exact ⟨program, hprogram, fun room stmt n hvisit => (hexecute room stmt n hvisit).1⟩

end Lox
