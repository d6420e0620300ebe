import Lox.Proofs.Classes
import Lox.Proofs.Iterations
import Lox.Proofs.Journal.Told

/-!
# The machines that a session reaches

The history of a session has a saga. So whatever the session does, it does on machines that lodge
its code and whose methods are marked.
-/

namespace Lox

section Answers

variable {h : Option Home} {m n : Machine} {q q' : Question}

theorem Machine.Lodges.leaves
    (hm : m.Lodges h)
    (hq : Home.discipline.admits h q)
    (limits : Limits)
    (room : Nat) :
    ((Evaluator.ofRoom limits room).leaves q m).Lodges h :=
  .of_shelters (Residence.lawful.leaves limits room hq hm.shelters)

/-- An answer has a saga. -/
theorem Saga.answer
    (hm : m.Lodges h)
    (hq : Home.discipline.admits h q)
    (limits : Limits)
    (room : Nat) :
    Saga limits false m ((Recorder.ofRoom limits room).journal q m)
      ((Evaluator.ofRoom limits room).leaves q m) := by
  have htold := Recorder.told_ofRoom limits room
  rw [← Recorder.evaluator_ofRoom]
  cases q with
  | evaluate e => exact htold.evaluate hq m hm
  | execute s => exact htold.execute hq m hm
  | run body => exact htold.run hq m hm

theorem asks_answer
    (g : Evaluator)
    (q : Question)
    (m : Machine) :
    Asks (fun g => g.answer q m) g q m := by
  cases q with
  | evaluate e =>
      have hasks : Asks (fun g => g.evaluate e m) g (.evaluate e) m :=
        asks_of_stopped fun _ _ h => ⟨m, Sum.inl.inj h⟩
      exact hasks.map Sum.inl_injective
  | execute s =>
      have hasks : Asks (fun g => g.execute s m) g (.execute s) m :=
        asks_of_stopped fun _ _ h => ⟨m, Sum.inr.inj h⟩
      exact hasks.map Sum.inr_injective
  | run body =>
      have hasks : Asks (fun g => g.run body m) g (.run body) m :=
        asks_of_stopped fun _ _ h => ⟨m, Sum.inr.inj h⟩
      exact hasks.map Sum.inr_injective

/-- Who asks for an answer asks nothing else. -/
theorem eq_of_asks_answer
    {g : Evaluator}
    (hasks : Asks (fun g => g.answer q m) g q' n) :
    q' = q ∧ n = m := by
  obtain ⟨g', halike, hne⟩ := hasks
  by_contra hnot
  refine hne (halike q m fun heq => hnot ?_)
  cases heq
  exact ⟨rfl, rfl⟩

/-- All code that runs for an answer is at home where it runs. -/
theorem Machine.Lodges.began
    {limits : Limits}
    {room : Nat}
    (hm : m.Lodges h)
    (hq : Home.discipline.admits h q)
    (hbegan : .began q' n ∈ (Recorder.ofRoom limits room).journal q m) :
    ∃ l, Home.discipline.admits l q' ∧ n.Lodges l := by
  obtain ⟨room', hvisits⟩ := Recorder.visits_of_began room
    (.first (asks_answer (.ofRoom limits room) q m)) hbegan
  obtain ⟨l, p, hadmits, hn⟩ := Residence.lawful.visits_of_asks (fun q'' n' hasks => by
    obtain ⟨rfl, rfl⟩ := eq_of_asks_answer hasks
    exact ⟨h, _, hq, hm.shelters⟩) hvisits
  exact ⟨l, hadmits, .of_shelters hn⟩

end Answers

section Sessions

theorem Machine.Established.lodges {m : Machine} (hm : m.Established) : m.Lodges none :=
  .of_shelters hm.shelters

theorem Machine.SameStore.eq_of_atTop
    {m n : Machine}
    (h : m.SameStore n)
    (hm : m.AtTop)
    (hn : n.AtTop) :
    n = m := by
  unfold SameStore at h
  rw [h, hn.1, hn.2, ← hm.1, ← hm.2]

/-- The run of a program has a saga. -/
theorem Program.saga
    {program : Program}
    (hprogram : ∀ s ∈ program.statements, s.Placed .outermost)
    (limits : Limits)
    (echo : Bool)
    {m : Machine}
    (hm : m.Established) :
    Saga limits false m (program.journal limits echo m) (program.run limits echo m).2 := by
  have hcovers : (Narrative.ofSagas limits false none).Covers m (program.recorded limits echo) :=
    Narration.runStatements (Recorder.told_ofRoom limits _) (program.belongs_of_placed hprogram)
      echo m
  have htold : Saga limits false m (program.journal limits echo m) _ := hcovers hm.lodges
  obtain ⟨hstore, -⟩ := program.sameStore_run limits echo m
  have hlast : (program.recorded limits echo m).1.machine.AtTop := by
    rw [program.recorded_outcome]
    exact program.atTop_statements limits echo hm.ready.atTop
  rw [hstore.eq_of_atTop hlast (program.atTop_run limits echo hm.ready.atTop)]
  exact htold

/-- What happens in the history of a session happens in the run of a program, on a machine that is
established. -/
theorem Session.exists_program_of_mem
    {inputs : List (String × String × Bool)}
    {s : Session}
    {e : Event}
    (hs : s.machine.Established)
    (he : e ∈ s.history inputs) :
    ∃ (program : Program) (echo : Bool) (m : Machine),
      (∀ t ∈ program.statements, t.Placed .outermost) ∧ m.Established ∧
      e ∈ program.journal s.limits echo m := by
  induction inputs generalizing s with
  | nil => cases he
  | cons input rest ih =>
      obtain ⟨source, path, echo⟩ := input
      rcases List.mem_append.mp he with he | he
      · unfold Session.events at he
        split at he
        · cases he
        · next program hprogram =>
            exact ⟨program, echo, s.machine, Program.placed_of_ofText hprogram, hs, he⟩
      · rw [← s.limits_run source path echo]
        exact ih (s.established_after [(source, path, echo)] hs) he

/-- The history of a session has a saga. -/
theorem Session.saga
    (inputs : List (String × String × Bool))
    (s : Session)
    (hs : s.machine.Established) :
    Saga s.limits false s.machine (s.history inputs) (s.after inputs).machine := by
  induction inputs generalizing s with
  | nil => exact .nil _
  | cons input rest ih =>
      obtain ⟨source, path, echo⟩ := input
      have hfirst : Saga s.limits false s.machine (s.events source path echo)
          (s.run source path echo).2.machine := by
        unfold Session.run Session.events
        cases hprogram : Program.ofText (s.sources.add path source).2 source.toList
            s.options.collectAll with
        | error errors =>
            simp only [hprogram]
            exact .nil _
        | ok program =>
            simp only [hprogram]
            have hrun := Program.saga (Program.placed_of_ofText hprogram) s.limits echo hs
            have houtput (n : Machine) : n.Proceeds n.takeOutput.2 :=
              .of_quiet (.of_eq rfl rfl rfl rfl rfl rfl) (.of_eq rfl rfl rfl)
            have hall := hrun.append (.step (houtput _))
            rwa [List.append_nil] at hall
      have hrest := ih (s.run source path echo).2 (s.established_after [(source, path, echo)] hs)
      rw [s.limits_run] at hrest
      exact hfirst.append hrest

end Sessions

/-- Running these sources, the session reaches the machine: something begins there, or an answer
leaves it behind. -/
def Session.Reaches (s : Session) (inputs : List (String × String × Bool)) (n : Machine) : Prop :=
  ∃ q m, .began q m ∈ s.history inputs ∧
    (n = m ∨ ∃ room, n = (Evaluator.ofRoom s.limits room).leaves q m)

section Reaching

variable {s : Session} {inputs : List (String × String × Bool)} {q : Question} {m n : Machine}

/-- All methods are marked as initializers exactly if they have the name. -/
def Machine.Marks (m : Machine) : Prop :=
  ∀ f ∈ m.methods, f.IsMarked

theorem Machine.Continues.marks (h : m.Continues n) (hm : m.Marks) : n.Marks :=
  fun f hf => (h.marked f hf).elim (hm f) id

/-- The code of a session is at home where it runs. -/
theorem Session.lodges_of_began
    (hs : s.machine.Established)
    (hbegan : .began q m ∈ s.history inputs) :
    ∃ h, Home.discipline.admits h q ∧ m.Lodges h := by
  obtain ⟨program, echo, start, hprogram, hstart, hjournal⟩ :=
    Session.exists_program_of_mem hs hbegan
  obtain ⟨room, hvisits⟩ := program.visits_of_began s.limits echo start hjournal
  obtain ⟨h, p, hadmits, hm⟩ := Residence.lawful.visits
    (program.belongs_of_placed hprogram) hstart.shelters hvisits
  exact ⟨h, hadmits, .of_shelters hm⟩

theorem Session.marks_of_began
    (hs : s.machine.Established)
    (hmarks : s.machine.Marks)
    (hbegan : .began q m ∈ s.history inputs) :
    m.Marks :=
  ((s.saga inputs hs).continues.2 _ hbegan).marks hmarks

theorem Session.Reaches.lodges
    (h : s.Reaches inputs n)
    (hs : s.machine.Established) :
    ∃ h, n.Lodges h := by
  obtain ⟨q, m, hbegan, hn⟩ := h
  obtain ⟨l, hadmits, hm⟩ := Session.lodges_of_began hs hbegan
  rcases hn with rfl | ⟨room, rfl⟩
  · exact ⟨l, hm⟩
  · exact ⟨l, hm.leaves hadmits s.limits room⟩

end Reaching

end Lox
