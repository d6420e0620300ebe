import Lox.Proofs.Journal.Accounts
import Lox.Proofs.Lineage.Operation

/-!
# What the machines of a journal know

The machines at all events of a journal know their classes, in the sense of `Machine.Knows`, if the
machine does on which it starts: one rule for each way in which computations with journals are
built.
-/

namespace Lox

theorem Outcome.values_onMachine
    {α : Type}
    (parts : α → List Value)
    (o : Outcome α)
    (change : Machine → Machine) :
    (o.onMachine change).values parts = o.values parts := by
  cases o with
  | done a m => rfl
  | stopped why m => cases why <;> rfl

namespace Machine.Knows

variable {m n : Machine} {held : List Value}

theorem alone (h : m.Knows held) : m.Knows [] :=
  h.mono (by simp)

theorem sameStore (h : m.Knows held) (hstore : m.SameStore n) : n.Knows held := by
  rw [hstore]
  exact h.of_eq (fun _ => rfl) rfl

end Machine.Knows

theorem Eval.Knows.echoValue {uses : List Value} (s : Stmt) :
    Eval.Knows uses (fun _ => []) (echoValue s) := by
  cases s with
  | expression e span =>
      exact bind (consult _) fun _ => print _
  | print | declare | block | ifElse | whileLoop | doWhile | forLoop | breakLoop | continueLoop
  | function | returnValue | classDecl | tryBlock | throwValue | dump => exact pure (by simp)

theorem Settled.knows
    {catchFaults : Bool}
    {o o' : Outcome Signal}
    {held : List Value}
    (h : Settled catchFaults o o')
    (ho : o.machine.Knows (o.values Signal.values ++ held)) :
    o'.machine.Knows (o'.values Signal.values ++ held) := by
  cases h with
  | done => exact ho
  | thrown => exact ho
  | caught hcaught hpayload =>
      -- the message of a fault is no class
      refine ho.mono fun v hv => ?_
      rcases List.mem_cons.mp hv with rfl | hv
      · rw [hpayload]
        trivial
      · exact ho.inFlight v hv
  | @stopped why why' n hwild hwild' hfault =>
      refine ho.mono fun v hv => ho.inFlight v ?_
      cases why' with
      | thrown t => exact absurd trivial hwild'
      | failed | exhausted | outOfFuel => exact List.mem_append_right _ hv

/-- The computation keeps what is known, and so do the machines of all events of its journal. -/
structure Recorded.Knows
    {α : Type}
    (uses : List Value)
    (parts : α → List Value)
    (c : Recorded α) :
    Prop where
  outcome : Eval.Knows uses parts fun m => (c m).1
  events : ∀ m held, uses ⊆ held → m.Knows held → ∀ e ∈ (c m).2, e.machine.Knows []

/-- What the computations of a recorder return is known. -/
structure Recorder.Knows (R : Recorder) : Prop where
  evaluate : ∀ e, Recorded.Knows [] ([·]) (R.evaluate e)
  execute : ∀ s, Recorded.Knows [] Signal.values (R.execute s)
  run : ∀ body, Recorded.Knows [] Signal.values (R.run body)

namespace Recorded.Knows

variable {α β : Type} {uses : List Value} {parts : α → List Value} {parts' : β → List Value}

theorem weaken
    {uses' : List Value}
    {c : Recorded α}
    (h : Knows uses parts c)
    (hsub : uses ⊆ uses') :
    Knows uses' parts c :=
  ⟨h.outcome.weaken hsub, fun m held huses => h.events m held (List.Subset.trans hsub huses)⟩

theorem pure {a : α} (h : ∀ v ∈ parts a, v ∈ uses ∨ ∀ count, v.Known count) :
    Knows uses parts (pure a) :=
  ⟨Eval.Knows.pure h, fun _ _ _ _ _ he => by cases he⟩

/-- An operation that runs no code. -/
theorem own {c : Eval α} (h : c.Knows uses parts) : Knows uses parts (.own c) where
  outcome := h
  events m held huses hm e he := by
    obtain ⟨fault, -, rfl⟩ := List.mem_map.mp he
    exact (h m held huses hm).alone

theorem bind
    {c : Recorded α}
    {f : α → Recorded β}
    (hc : Knows uses parts c)
    (hf : ∀ a, Knows (parts a ++ uses) parts' (f a)) :
    Knows uses parts' (c >>= f) := by
  let first : Eval α := fun m => (c m).1
  let next (a : α) : Eval β := fun m => (f a m).1
  have heval : Eval.Knows uses parts' (first >>= next) :=
    Eval.Knows.bind hc.outcome fun a => (hf a).outcome
  have houtcome (m : Machine) (held : List Value) (huses : uses ⊆ held) (hm : m.Knows held) :
      ((c >>= f) m).1.machine.Knows (((c >>= f) m).1.values parts' ++ held) := by
    have hn := heval m held huses hm
    rw [Eval.bind_apply] at hn
    cases ho : (c m).1 with
    | done a n =>
        rw [Recorded.bind_done ho]
        simp only [first, ho] at hn
        exact hn
    | stopped why n =>
        rw [Recorded.bind_stopped ho]
        simp only [first, ho] at hn
        exact hn
  refine ⟨houtcome, fun m held huses hm e he => ?_⟩
  cases ho : (c m).1 with
  | stopped why n =>
      rw [Recorded.bind_stopped ho] at he
      exact hc.events m held huses hm e he
  | done a n =>
      rw [Recorded.bind_done ho] at he
      rcases List.mem_append.mp he with he | he
      · exact hc.events m held huses hm e he
      · have hn := hc.outcome m held huses hm
        simp only [ho] at hn
        exact (hf a).events n (parts a ++ held) (List.append_subset.mpr
          ⟨List.subset_append_left _ _, List.subset_append_of_subset_right _ huses⟩) hn e he

/-- A computation in a scope or call of its own. -/
theorem around
    {inward : Machine → Machine}
    {outward : Machine → Machine → Machine}
    {c : Recorded α}
    (hc : Knows uses parts c)
    (hin : ∀ m held, uses ⊆ held → m.Knows held → (inward m).Knows held)
    (hout : ∀ m n : Machine, n.SameStore (outward m n)) :
    Knows uses parts (.around inward outward c) where
  outcome m held huses hm := by
    have hn := hc.outcome _ held huses (hin m held huses hm)
    simp only [Recorded.around, Outcome.machine_onMachine, Outcome.values_onMachine]
    exact hn.sameStore (hout m _)
  events m held huses hm := hc.events _ held huses (hin m held huses hm)

theorem locating {c : Recorded α} (hc : Knows uses parts c) (span : Span) :
    Knows uses parts (.locating span c) where
  outcome m held huses hm := by
    have hn := hc.outcome m held huses hm
    simp only [Recorded.locating]
    obtain h | ⟨f, f', n, ho, h, -⟩ := Eval.locating_cases span (fun m => (c m).1) m
    · rw [h]
      exact hn
    · rw [h]
      simp only [ho] at hn
      exact hn
  events := hc.events

theorem starting {c : Recorded α} (hc : Knows uses parts c) (q : Question) :
    Knows uses parts (.starting q c) where
  outcome := hc.outcome
  events m held huses hm e he := by
    rcases List.mem_cons.mp he with rfl | he
    · exact hm.alone
    · exact hc.events m held huses hm e he

theorem settle
    {c : Recorded Signal}
    (hc : Knows uses Signal.values c)
    (catchFaults : Bool)
    (s : Stmt) :
    Knows uses Signal.values (.settle catchFaults s c) := by
  have houtcome : Eval.Knows uses Signal.values fun m => (Recorded.settle catchFaults s c m).1 := by
    intro m held huses hm
    have hsettled := Eval.settled catchFaults s.span (fun m => (c m).1) m
    exact hsettled.knows (hc.outcome m held huses hm)
  refine ⟨houtcome, fun m held huses hm e he => ?_⟩
  rcases List.mem_append.mp he with he | he
  · exact hc.events m held huses hm e he
  · have hn := houtcome m held huses hm
    simp only [Recorded.settle] at hn
    unfold Recorded.ending at he
    split at he
    · next ho =>
        rw [List.mem_singleton.mp he]
        rw [ho] at hn
        exact hn.alone
    · cases he

/-- A clause of a `try` statement. -/
theorem inClause
    {c : Recorded Signal}
    (hc : Knows uses Signal.values c)
    (clause : Clause)
    (statements : List Stmt) :
    Knows uses Signal.values (.inClause clause statements c) where
  outcome := hc.outcome
  events m held huses hm e he := by
    rcases List.mem_cons.mp he with rfl | he
    · exact hm.alone
    · rcases List.mem_append.mp he with he | he
      · exact hc.events m held huses hm e he
      · have hn := hc.outcome m held huses hm
        unfold Recorded.closing at he
        split at he
        · next ho =>
            rw [List.mem_singleton.mp he]
            simp only [ho] at hn
            exact hn.alone
        · cases he

end Recorded.Knows

end Lox
