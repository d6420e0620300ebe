import Lox.Proofs.Entering
import Lox.Proofs.Journal.Knowledge

/-!
# Computations that keep journals

`Tracks` says that a computation of a recorder does what a computation of an evaluator does, keeps
a journal that is accounted for, knows its classes, and begins nothing but what it asks the recorder
to begin. There is one rule for each way in which computations are built.
-/

namespace Lox

namespace Eval

variable {α : Type} {why : Interruption} {m n : Machine}

theorem locating_final
    {p : Eval α}
    (span : Span)
    (hwhy : why.IsFinal)
    (h : p m = .stopped why n) :
    locating span p m = .stopped why n := by
  cases why with
  | thrown t => cases hwhy
  | failed f => cases hwhy
  | exhausted => simp only [locating, h]
  | outOfFuel => simp only [locating, h]

theorem settle_final
    {p : Eval Signal}
    (catchFaults : Bool)
    (span : Span)
    (hwhy : why.IsFinal)
    (h : p m = .stopped why n) :
    settle catchFaults span p m = .stopped why n := by
  cases why with
  | thrown t => cases hwhy
  | failed f => cases hwhy
  | exhausted => simp only [settle, h]
  | outOfFuel => simp only [settle, h]

end Eval

/-- The journals of a recorder are accounted for, and its statements end with a signal unless they
are cut short. -/
structure Recorder.Accounted (R : Recorder) (catchFaults : Bool) : Prop where
  evaluate : ∀ e m, Lox.Accounted catchFaults true m (R.evaluate e m).1 (R.evaluate e m).2
  execute : ∀ s m, Lox.Accounted catchFaults true m (R.execute s m).1 (R.execute s m).2
  run : ∀ body m, Lox.Accounted catchFaults true m (R.run body m).1 (R.run body m).2
  settled : ∀ s m, (R.execute s m).1.IsTame catchFaults →
    ∃ signal n, (R.execute s m).1 = .done signal n

/-- The computation of recorders keeps the journal of the computation of evaluators. It uses some
values, and its result consists of some. -/
structure Tracks
    {α : Type}
    (catchFaults strict : Bool)
    (uses : List Value)
    (parts : α → List Value)
    (c : Recorder → Recorded α)
    (c₀ : Evaluator → Eval α) :
    Prop where
  /-- Without the journal the two do the same. -/
  erases : ∀ R m, (c R m).1 = c₀ R.evaluator m
  accounted : ∀ R : Recorder, R.Accounted catchFaults → ∀ m,
    Accounted catchFaults strict m (c R m).1 (c R m).2
  knows : ∀ R : Recorder, R.Knows → Recorded.Knows uses parts (c R)
  /-- If the evaluator is stopped for good at one question, it does not matter or stops all. -/
  guarded : ∀ (g : Evaluator) (q : Question) (n : Machine) (why : Interruption) (m : Machine),
    why.IsFinal →
    c₀ (g.stoppedAt q n why) m = c₀ g m ∨ ∃ n', c₀ (g.stoppedAt q n why) m = .stopped why n'
  /-- What the journal says was begun was begun by a question to the recorder. -/
  asked : ∀ (R : Recorder) (m : Machine) (q : Question) (n : Machine),
    .began q n ∈ (c R m).2 →
    ∃ q' n', .began q n ∈ R.journal q' n' ∧ ∀ why : Interruption, why.IsFinal →
      ∃ n'', c₀ (R.evaluator.stoppedAt q' n' why) m = .stopped why n''

namespace Tracks

variable {α β : Type} {catchFaults strict : Bool}
variable {uses : List Value} {parts : α → List Value} {parts' : β → List Value}

theorem pure {a : α} (h : ∀ v ∈ parts a, v ∈ uses ∨ ∀ count, v.Known count) :
    Tracks catchFaults strict uses parts (fun _ => pure a) (fun _ => pure a) where
  erases _ _ := rfl
  accounted _ _ m := .done a m
  knows _ _ := .pure h
  guarded _ _ _ _ _ _ := .inl rfl
  asked _ _ _ _ h := by cases h

/-- An operation that runs no code. -/
theorem own
    {c : Eval α}
    (h : c.Steps Machine.Grows)
    (hknows : c.Knows uses parts) :
    Tracks catchFaults strict uses parts (fun _ => .own c) (fun _ => c) where
  erases _ _ := rfl
  accounted _ _ m := .own (h m)
  knows _ _ := .own hknows
  guarded _ _ _ _ _ _ := .inl rfl
  asked _ m _ _ hq := by
    obtain ⟨fault, -, heq⟩ := List.mem_map.mp hq
    cases heq

theorem bind
    {c : Recorder → Recorded α}
    {c₀ : Evaluator → Eval α}
    {f : Recorder → α → Recorded β}
    {f₀ : Evaluator → α → Eval β}
    (hc : Tracks catchFaults strict uses parts c c₀)
    (hf : ∀ a, Tracks catchFaults strict (parts a ++ uses) parts' (fun R => f R a)
      (fun g => f₀ g a)) :
    Tracks catchFaults strict uses parts' (fun R => c R >>= f R) (fun g => c₀ g >>= f₀ g) where
  erases R m := by
    rw [Eval.bind_apply, ← hc.erases]
    cases ho : (c R m).1 with
    | done a n =>
        rw [Recorded.bind_done ho]
        exact (hf a).erases R n
    | stopped why n =>
        rw [Recorded.bind_stopped ho]
        rfl
  accounted R hR m := (hc.accounted R hR m).bind fun a n _ => (hf a).accounted R hR n
  knows R hR := (hc.knows R hR).bind fun a => (hf a).knows R hR
  guarded g q n why m hwhy := by
    simp only [Eval.bind_apply]
    rcases hc.guarded g q n why m hwhy with h | ⟨n', h⟩
    · rw [h]
      cases c₀ g m with
      | done a n' => exact (hf a).guarded g q n why n' hwhy
      | stopped why' n' => exact .inl rfl
    · rw [h]
      exact .inr ⟨n', rfl⟩
  asked R m q n hq := by
    simp only [Eval.bind_apply]
    -- what the first part asks stops the whole
    have hfirst (h : .began q n ∈ (c R m).2) :
        ∃ q' n', .began q n ∈ R.journal q' n' ∧ ∀ why : Interruption, why.IsFinal →
          ∃ n'', (c₀ (R.evaluator.stoppedAt q' n' why) m).andThen
            (f₀ (R.evaluator.stoppedAt q' n' why)) = .stopped why n'' := by
      obtain ⟨q', n', hjournal, hstopped⟩ := hc.asked R m q n h
      refine ⟨q', n', hjournal, fun why hwhy => ?_⟩
      obtain ⟨n'', h⟩ := hstopped why hwhy
      exact ⟨n'', by rw [h]; rfl⟩
    cases ho : (c R m).1 with
    | stopped why n' =>
        rw [Recorded.bind_stopped ho] at hq
        exact hfirst hq
    | done a n₁ =>
        rw [Recorded.bind_done ho] at hq
        rcases List.mem_append.mp hq with hq | hq
        · exact hfirst hq
        · obtain ⟨q', n', hjournal, hstopped⟩ := (hf a).asked R n₁ q n hq
          refine ⟨q', n', hjournal, fun why hwhy => ?_⟩
          -- the first part goes as before, or is stopped itself
          rcases hc.guarded R.evaluator q' n' why m hwhy with h | ⟨n'', h⟩
          · rw [h, ← hc.erases, ho]
            exact hstopped why hwhy
          · exact ⟨n'', by rw [h]; rfl⟩

section Questions

theorem evaluate (e : Expr) :
    Tracks catchFaults strict uses ([·]) (fun R => R.evaluate e) (fun g => g.evaluate e) where
  erases _ _ := rfl
  accounted _ hR m := (hR.evaluate e m).weaken
  knows _ hR := (hR.evaluate e).weaken (List.nil_subset _)
  guarded g q n why m _ := by
    simp only [Evaluator.stoppedAt]
    split
    · exact .inr ⟨m, rfl⟩
    · exact .inl rfl
  asked R m q n hq := ⟨.evaluate e, m, hq, fun why _ => ⟨m, by simp [Evaluator.stoppedAt]⟩⟩

theorem execute (s : Stmt) :
    Tracks catchFaults strict uses Signal.values (fun R => R.execute s)
      (fun g => g.execute s) where
  erases _ _ := rfl
  accounted _ hR m := (hR.execute s m).weaken
  knows _ hR := (hR.execute s).weaken (List.nil_subset _)
  guarded g q n why m _ := by
    simp only [Evaluator.stoppedAt]
    split
    · exact .inr ⟨m, rfl⟩
    · exact .inl rfl
  asked R m q n hq := ⟨.execute s, m, hq, fun why _ => ⟨m, by simp [Evaluator.stoppedAt]⟩⟩

theorem run (body : List Stmt) :
    Tracks catchFaults strict uses Signal.values (fun R => R.run body) (fun g => g.run body) where
  erases _ _ := rfl
  accounted _ hR m := (hR.run body m).weaken
  knows _ hR := (hR.run body).weaken (List.nil_subset _)
  guarded g q n why m _ := by
    simp only [Evaluator.stoppedAt]
    split
    · exact .inr ⟨m, rfl⟩
    · exact .inl rfl
  asked R m q n hq := ⟨.run body, m, hq, fun why _ => ⟨m, by simp [Evaluator.stoppedAt]⟩⟩

end Questions

section Brackets

variable {c : Recorder → Recorded α} {c₀ : Evaluator → Eval α}

/-- A computation in a scope or call of its own. -/
theorem around
    {inward : Machine → Machine}
    {outward : Machine → Machine → Machine}
    {bracket : Eval α → Eval α}
    (hc : Tracks catchFaults strict uses parts c c₀)
    (hin : ∀ m : Machine, m.Grows (inward m))
    (hknows : ∀ m held, uses ⊆ held → m.Knows held → (inward m).Knows held)
    (hout : ∀ m n : Machine, n.SameStore (outward m n))
    (hbracket : ∀ (p : Eval α) m, bracket p m = (p (inward m)).onMachine (outward m)) :
    Tracks catchFaults strict uses parts (fun R => .around inward outward (c R))
      (fun g => bracket (c₀ g)) where
  erases R m := by
    rw [hbracket, ← hc.erases]
    rfl
  accounted R hR m := (hc.accounted R hR (inward m)).around (hin m) (hout m)
  knows R hR := (hc.knows R hR).around hknows hout
  guarded g q n why m hwhy := by
    rw [hbracket, hbracket]
    rcases hc.guarded g q n why (inward m) hwhy with h | ⟨n', h⟩
    · exact .inl (by rw [h])
    · exact .inr ⟨outward m n', by rw [h]; rfl⟩
  asked R m q n hq := by
    obtain ⟨q', n', hjournal, hstopped⟩ := hc.asked R (inward m) q n hq
    refine ⟨q', n', hjournal, fun why hwhy => ?_⟩
    obtain ⟨n'', h⟩ := hstopped why hwhy
    exact ⟨outward m n'', by rw [hbracket, h]; rfl⟩

theorem grows_enter (m : Machine) (parent : ScopeId) (bindings : List Binding) :
    m.Grows (m.enter parent bindings) := by
  rw [Machine.enter_eq]
  exact .of_eq rfl rfl

theorem inNewScope
    (hc : Tracks catchFaults strict uses parts c c₀)
    (parent : ScopeId)
    {bindings : List Binding}
    (hbindings : ∀ b ∈ bindings, b.value ∈ uses) :
    Tracks catchFaults strict uses parts (fun R => .inNewScope parent bindings (c R))
      (fun g => Eval.inNewScope parent bindings (c₀ g)) :=
  hc.around (fun m => grows_enter m parent bindings)
    (fun _ _ huses hm => hm.enter parent fun b hb => huses (hbindings b hb))
    (fun m n => .leave n m.current) (Eval.inNewScope_apply parent bindings)

theorem inInnerScope
    (hc : Tracks catchFaults strict uses parts c c₀)
    {bindings : List Binding}
    (hbindings : ∀ b ∈ bindings, b.value ∈ uses) :
    Tracks catchFaults strict uses parts (fun R => .inInnerScope bindings (c R))
      (fun g => Eval.inInnerScope bindings (c₀ g)) :=
  hc.around (fun m => grows_enter m m.current bindings)
    (fun m _ huses hm => hm.enter m.current fun b hb => huses (hbindings b hb))
    (fun m n => .leave n m.current) (Eval.inInnerScope_apply bindings)

theorem inCall
    (hc : Tracks catchFaults strict uses parts c c₀)
    (frame : Frame) :
    Tracks catchFaults strict uses parts (fun R => .inCall frame (c R))
      (fun g => Eval.inCall frame (c₀ g)) :=
  hc.around (fun _ => .of_eq rfl rfl) (fun _ _ _ hm => hm.of_eq (fun _ => rfl) rfl)
    (fun _ n => .popFrame n) (Eval.inCall_apply frame)

theorem locating
    (hc : Tracks catchFaults strict uses parts c c₀)
    (span : Span) :
    Tracks catchFaults strict uses parts (fun R => .locating span (c R))
      (fun g => Eval.locating span (c₀ g)) where
  erases R m := by
    have h : (fun m => (c R m).1) = c₀ R.evaluator := funext (hc.erases R)
    simp only [Recorded.locating, h]
  accounted R hR m := (hc.accounted R hR m).locating span
  knows R hR := (hc.knows R hR).locating span
  guarded g q n why m hwhy := by
    rcases hc.guarded g q n why m hwhy with h | ⟨n', h⟩
    · exact .inl (by simp only [Eval.locating, h])
    · exact .inr ⟨n', Eval.locating_final span hwhy h⟩
  asked R m q n hq := by
    obtain ⟨q', n', hjournal, hstopped⟩ := hc.asked R m q n hq
    refine ⟨q', n', hjournal, fun why hwhy => ?_⟩
    obtain ⟨n'', h⟩ := hstopped why hwhy
    exact ⟨n'', Eval.locating_final span hwhy h⟩

/-- A clause of a `try` statement. -/
theorem inClause
    {c : Recorder → Recorded Signal}
    {c₀ : Evaluator → Eval Signal}
    (hc : Tracks catchFaults true uses Signal.values c c₀)
    (clause : Clause)
    (statements : List Stmt) :
    Tracks catchFaults false uses Signal.values (fun R => .inClause clause statements (c R))
      c₀ where
  erases := hc.erases
  accounted R hR m := (hc.accounted R hR m).inClause clause statements
  knows R hR := (hc.knows R hR).inClause clause statements
  guarded := hc.guarded
  asked R m q n hq := by
    refine hc.asked R m q n ?_
    simp only [Recorded.inClause, List.mem_cons, reduceCtorEq, List.mem_append, false_or] at hq
    refine hq.resolve_right fun h => ?_
    unfold Recorded.closing at h
    split at h
    · simp at h
    · simp at h

end Brackets

end Tracks

end Lox
