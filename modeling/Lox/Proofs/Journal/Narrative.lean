import Lox.Proofs.Journal.Run
import Lox.Proofs.PlainLoop

/-!
# Narratives

A journal says what happened, but not what became of the machine meanwhile. A `Narrative` is a kind
of stories that do: each leads from one machine to another by way of the events of a journal. A
computation of a recorder is covered by a narrative if its journal is that of a story
(`Narrative.Covers`). There is one rule for each way in which computations are built.
-/

namespace Lox

section Notes

variable {α : Type} {n : Machine} {e : Event}

/-- The event happens on the machine and is no beginning. -/
def Event.IsNote (n : Machine) (e : Event) : Prop :=
  e.machine = n ∧ ∀ q m, e ≠ .began q m

theorem Outcome.isNote_raised {o : Outcome α} (h : e ∈ o.raised n) : e.IsNote n := by
  obtain ⟨fault, -, rfl⟩ := List.mem_map.mp h
  exact ⟨rfl, nofun⟩

theorem Recorded.isNote_ending {s : Stmt} {o : Outcome Signal} (h : e ∈ ending s o) :
    e.IsNote o.machine := by
  cases o with
  | done signal n =>
      obtain rfl := List.mem_singleton.mp h
      exact ⟨rfl, nofun⟩
  | stopped why n => cases h

theorem Recorded.isNote_closing
    {clause : Clause}
    {statements : List Stmt}
    {o : Outcome Signal}
    (h : e ∈ closing clause statements o) :
    e.IsNote o.machine := by
  cases o with
  | done signal n =>
      obtain rfl := List.mem_singleton.mp h
      exact ⟨rfl, nofun⟩
  | stopped why n => cases h

theorem Settled.machine_eq
    {catchFaults : Bool}
    {o o' : Outcome Signal}
    (h : Settled catchFaults o o') :
    o'.machine = o.machine := by
  cases h <;> rfl

theorem Eval.machine_locating (span : Span) (c : Eval α) (m : Machine) :
    (locating span c m).machine = (c m).machine := by
  obtain h | ⟨f, f', n, ho, h, -⟩ := locating_cases span c m
  · rw [h]
  · rw [h, ho]
    rfl

end Notes

/-- A kind of stories: on which machines they may begin, which steps of the machine they pass over in
silence, and from which machine to which they lead by way of a journal. -/
structure Narrative where
  admits : Machine → Prop
  step : Machine → Machine → Prop
  tells : Machine → List Event → Machine → Prop

namespace Narrative

/-- Begun on the machine, the computation goes from there to its outcome by way of its journal. -/
def Covers {α : Type} (N : Narrative) (m : Machine) (c : Recorded α) : Prop :=
  N.admits m → N.tells m (c m).2 (c m).1.machine

/-- What is to be shown of a narrative: stories can be told of steps and of events, they can be put
together, and another story may begin where one ends. -/
class Lawful (N : Narrative) : Prop extends Eval.Operating N.step where
  told : ∀ {m n}, N.step m n → N.tells m [] n
  note : ∀ {e : Event}, (∀ q m, e ≠ .began q m) → N.tells e.machine [e] e.machine
  append : ∀ {m n o journal later},
    N.tells m journal n → N.tells n later o → N.tells m (journal ++ later) o
  admits_later : ∀ {m n journal}, N.tells m journal n → N.admits m → N.admits n

variable {N : Narrative} [N.Lawful] {α β : Type} {m n : Machine}

theorem nil (m : Machine) : N.tells m [] m :=
  Lawful.told (refl_of N.step m)

/-- Events that happen on one machine. -/
theorem notes {journal : List Event} (h : ∀ e ∈ journal, e.IsNote n) : N.tells n journal n := by
  induction journal with
  | nil => exact nil n
  | cons e rest ih =>
      obtain ⟨rfl, hplain⟩ := h e List.mem_cons_self
      exact Lawful.append (Lawful.note hplain) (ih fun e' he' => h e' (List.mem_cons_of_mem e he'))

namespace Covers

theorem pure (a : α) : N.Covers m (pure a) :=
  fun _ => nil m

/-- An operation that runs no code of the program. -/
theorem own {c : Eval α} (h : N.admits m → N.step m (c m).machine) :
    N.Covers m (Recorded.own c) :=
  fun hm => Lawful.append (Lawful.told (h hm)) (notes fun _ he => Outcome.isNote_raised he)

theorem elementary {c : Eval α} (h : c.Elementary N.step) : N.Covers m (Recorded.own c) :=
  own fun _ => h.steps m

theorem ask (question : Machine → α) : N.Covers m (Recorded.own (Eval.ask question)) :=
  elementary (.ask question)

theorem stop {why : Interruption} (h : why.IsBare) :
    N.Covers m (Recorded.own (Eval.stop why : Eval α)) :=
  elementary (.stop h)

theorem fail (fault : Fault) : N.Covers m (Recorded.own (Eval.fail fault : Eval α)) :=
  elementary (.fail fault)

/-- Two computations one after the other, where it matters what the first one did. -/
theorem bind_of
    {c : Recorded α}
    {f : α → Recorded β}
    (hc : N.Covers m c)
    (hf : ∀ a n, (c m).1 = .done a n → N.Covers n (f a)) :
    N.Covers m (c >>= f) := by
  intro hm
  have h := hc hm
  cases ho : (c m).1 with
  | done a n =>
      rw [Recorded.bind_done ho]
      rw [ho] at h
      exact Lawful.append h (hf a n ho (Lawful.admits_later h hm))
  | stopped why n =>
      rw [Recorded.bind_stopped ho]
      rw [ho] at h
      exact h

theorem bind
    {c : Recorded α}
    {f : α → Recorded β}
    (hc : N.Covers m c)
    (hf : ∀ a n, N.Covers n (f a)) :
    N.Covers m (c >>= f) :=
  hc.bind_of fun a n _ => hf a n

omit [N.Lawful] in
theorem locating {c : Recorded α} (span : Span) (hc : N.Covers m c) :
    N.Covers m (Recorded.locating span c) := by
  intro hm
  have hmachine : (Recorded.locating span c m).1.machine = (c m).1.machine :=
    Eval.machine_locating span (fun m => (c m).1) m
  rw [hmachine]
  exact hc hm

/-- How a statement ends is settled. -/
theorem settle {c : Recorded Signal} (catchFaults : Bool) (s : Stmt) (hc : N.Covers m c) :
    N.Covers m (Recorded.settle catchFaults s c) := by
  intro hm
  have hmachine : (Recorded.settle catchFaults s c m).1.machine = (c m).1.machine :=
    (Eval.settled catchFaults s.span (fun m => (c m).1) m).machine_eq
  rw [hmachine]
  exact Lawful.append (hc hm) (notes fun _ he => hmachine ▸ Recorded.isNote_ending he)

/-- The clause of a `try` statement. -/
theorem inClause
    {c : Recorded Signal}
    (clause : Clause)
    (statements : List Stmt)
    (hc : N.Covers m c) :
    N.Covers m (Recorded.inClause clause statements c) := by
  intro hm
  have hopened : Event.IsNote m (.opened clause statements m) := ⟨rfl, nofun⟩
  exact Lawful.append (Lawful.note hopened.2)
    (Lawful.append (hc hm) (notes fun _ he => Recorded.isNote_closing he))

end Covers

end Narrative

namespace Recorded

section Returning

variable {α β : Type}

/-- The computation ends in the scope in which it starts. -/
def Returning (c : Recorded α) : Prop :=
  ∀ m, (c m).1.machine.current = m.current

namespace Returning

theorem of_tracks
    {catchFaults strict : Bool}
    {uses : List Value}
    {parts : α → List Value}
    {limits : Limits}
    {room : Nat}
    {c : Recorder → Recorded α}
    {c₀ : Evaluator → Eval α}
    (h : Tracks catchFaults strict uses parts c c₀)
    (hreturning : Eval.Returning (c₀ (.ofRoom limits room))) :
    Returning (c (.ofRoom limits room)) := by
  intro m
  rw [h.erases, Recorder.evaluator_ofRoom]
  exact hreturning m

theorem current_of_done
    {c : Recorded α}
    {m n : Machine}
    {a : α}
    (hc : Returning c)
    (h : (c m).1 = .done a n) :
    n.current = m.current := by
  have hcurrent := hc m
  rw [h] at hcurrent
  exact hcurrent

theorem pure (a : α) : Returning (pure a) :=
  fun _ => rfl

theorem bind
    {c : Recorded α}
    {f : α → Recorded β}
    (hc : Returning c)
    (hf : ∀ a, Returning (f a)) :
    Returning (c >>= f) := by
  intro m
  have h := hc m
  cases ho : (c m).1 with
  | done a n =>
      rw [bind_done ho]
      rw [ho] at h
      exact (hf a n).trans h
  | stopped why n =>
      rw [bind_stopped ho]
      rw [ho] at h
      exact h

variable (limits : Limits) (room : Nat)

theorem executeOptional (initial : Option Stmt) :
    Returning (executeOptional (.ofRoom limits room) initial) :=
  .of_tracks (Tracks.executeOptional initial : Tracks false false [] _ _ _)
    (.executeOptional limits room initial)

theorem advance (increment : Option Expr) (isFirst : Bool) :
    Returning (advance (.ofRoom limits room) isFirst increment) :=
  .of_tracks (Tracks.advance isFirst increment : Tracks false false [] _ _ _)
    (.advance limits room isFirst increment)

theorem holds (condition : Option Expr) :
    Returning (holds (.ofRoom limits room) condition) :=
  .of_tracks (Tracks.holds condition : Tracks false false [] _ _ _) (.holds limits room condition)

theorem loopBody (body : Stmt) : Returning (loopBody (.ofRoom limits room) body) :=
  .of_tracks (Tracks.loopBody body : Tracks false false [] _ _ _) (.loopBody limits room body)

end Returning

end Returning

end Recorded

end Lox
