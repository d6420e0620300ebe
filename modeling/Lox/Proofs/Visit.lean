import Lox.Proofs.Invariance
import Lox.Session
import Mathlib.Tactic.ByContra

/-!
# The points of a run

A run consists of questions to evaluators: what an expression evaluates to, how a statement ends,
how the body of a function ends, each on the machine of the moment. `Visits` says which questions
come up. Under the laws of an invariant all of them concern code that may run where it does, on
machines on which the invariant holds.
-/

namespace Lox

/-- What an evaluator can be asked. -/
inductive Question
  | evaluate (e : Expr)
  | execute (s : Stmt)
  | run (body : List Stmt)

namespace Evaluator

/-- The answer of an evaluator to a question. -/
def answer (g : Evaluator) : Question → Machine → Outcome Value ⊕ Outcome Signal
  | .evaluate e, m => .inl (g.evaluate e m)
  | .execute s, m => .inr (g.execute s m)
  | .run body, m => .inr (g.run body m)

/-- The machine that an evaluator leaves behind when it has answered. -/
def leaves (g : Evaluator) : Question → Machine → Machine
  | .evaluate e, m => (g.evaluate e m).machine
  | .execute s, m => (g.execute s m).machine
  | .run body, m => (g.run body m).machine

/-- The evaluators give the same answers, except perhaps to this question on this machine. -/
def AlikeBut (q : Question) (n : Machine) (g g' : Evaluator) : Prop :=
  ∀ q' n', (q', n') ≠ (q, n) → g.answer q' n' = g'.answer q' n'

end Evaluator

/-- The computation `f`, which uses the evaluator `g`, asks it this question on this machine:
another answer would change how the computation goes. No question escapes this, since nothing in
the language recovers from an answer that the fuel or the room is used up. -/
def Asks {β : Type} (f : Evaluator → β) (g : Evaluator) (q : Question) (n : Machine) : Prop :=
  ∃ g' : Evaluator, g.AlikeBut q n g' ∧ f g ≠ f g'

/-- The computation `start`, which uses the evaluator of `top`, or something done on its behalf,
asks the evaluator of `room` the question on the machine. -/
inductive Visits
    {β : Type}
    (limits : Limits)
    (start : Evaluator → β)
    (top : Nat) :
    (room : Nat) → Question → Machine → Prop
  | first {q : Question} {n : Machine} :
      Asks start (.ofRoom limits top) q n → Visits limits start top top q n
  | inside {room : Nat} {q q' : Question} {n n' : Machine} :
      Visits limits start top (room + 1) q n →
      Asks (fun g => (Evaluator.deeper limits g).answer q n) (.ofRoom limits room) q' n' →
      Visits limits start top room q' n'

/-- Does nothing in the language recover from the interruption? -/
def Interruption.IsFinal : Interruption → Prop
  | thrown _ => False
  | failed _ => False
  | exhausted => True
  | outOfFuel => True

section Asking

variable {α : Type} {g : Evaluator} {q : Question} {n : Machine}

/-- The answer that it was stopped. -/
def Question.stopped (why : Interruption) (m : Machine) :
    Question → Outcome Value ⊕ Outcome Signal
  | evaluate _ => .inl (.stopped why m)
  | execute _ | run _ => .inr (.stopped why m)

open Classical in
/-- The evaluator, except that it is stopped at one question. -/
noncomputable def Evaluator.stoppedAt
    (g : Evaluator)
    (q : Question)
    (n : Machine)
    (why : Interruption) :
    Evaluator where
  evaluate e m := if (.evaluate e, m) = (q, n) then .stopped why m else g.evaluate e m
  execute s m := if (.execute s, m) = (q, n) then .stopped why m else g.execute s m
  run body m := if (.run body, m) = (q, n) then .stopped why m else g.run body m

theorem Evaluator.alikeBut_stoppedAt (why : Interruption) :
    g.AlikeBut q n (g.stoppedAt q n why) := by
  intro q' n' hne
  cases q' <;> simp only [answer, stoppedAt, if_neg hne]

theorem Evaluator.answer_stoppedAt (why : Interruption) :
    (g.stoppedAt q n why).answer q n = q.stopped why n := by
  cases q <;> simp [answer, stoppedAt, Question.stopped]

/-- A computation asks whatever stops it for good when it is stopped for good there. -/
theorem asks_of_final
    {f : Evaluator → Outcome α}
    (h : ∀ why : Interruption, why.IsFinal → ∃ n', f (g.stoppedAt q n why) = .stopped why n') :
    Asks f g q n := by
  obtain ⟨m₁, h₁⟩ := h .exhausted trivial
  obtain ⟨m₂, h₂⟩ := h .outOfFuel trivial
  -- one of the two reasons to stop is not how the computation ends anyway
  by_cases heq : f g = f (g.stoppedAt q n .exhausted)
  · refine ⟨_, Evaluator.alikeBut_stoppedAt .outOfFuel, ?_⟩
    rw [heq, h₁, h₂]
    nofun
  · exact ⟨_, Evaluator.alikeBut_stoppedAt .exhausted, heq⟩

/-- A computation asks whatever stops it when the answer is that it was stopped. -/
theorem asks_of_stopped
    {f : Evaluator → Outcome α}
    (h : ∀ (g' : Evaluator) (why : Interruption), g'.answer q n = q.stopped why n →
      ∃ n', f g' = .stopped why n') :
    Asks f g q n :=
  asks_of_final fun why _ => h _ why (Evaluator.answer_stoppedAt why)

/-- An answer is asked for what the computation of it is asked for. -/
theorem Asks.map
    {β γ : Type} {f : Evaluator → β}
    (h : Asks f g q n)
    {wrap : β → γ}
    (hwrap : Function.Injective wrap) :
    Asks (fun g => wrap (f g)) g q n := by
  obtain ⟨g', halike, hne⟩ := h
  exact ⟨g', halike, fun heq => hne (hwrap heq)⟩

/-- The run of a program executes its first statement. -/
theorem asks_runStatements_head (echo : Bool) (s : Stmt) (rest : List Stmt) (m : Machine) :
    Asks (fun g => Eval.runStatements g echo (s :: rest) m) g (.execute s) m := by
  refine asks_of_stopped fun g' why hstopped => ⟨m, ?_⟩
  have hs : g'.execute s m = .stopped why m := Sum.inr.inj hstopped
  simp only [Eval.runStatements, Eval.bind_apply, hs, Outcome.andThen]

end Asking

namespace Discipline

/-- May the question come up in the setting? -/
def admits (code : Discipline) (k : code.Setting) : Question → Prop
  | .evaluate e => code.expr k e
  | .execute s => code.stmt k s
  | .run body => code.body k body

end Discipline

namespace Invariance

open Eval

variable {code : Discipline} {I : Invariance code}
variable {k : code.Setting} {p : I.Place}

/-- Evaluators agree as long as they answer alike where the invariant holds. -/
theorem evaluates_of_answer_eq
    {g g' : Evaluator}
    (hg : I.simulation.Evaluates g g)
    (h : ∀ k p q m, code.admits k q → I.holds k p m → g.answer q m = g'.answer q m) :
    I.simulation.Evaluates g g' where
  evaluate {k p e} he := by
    rintro m _ ⟨rfl, hm⟩
    have heq := Sum.inl.inj (h k p (.evaluate e) m he hm)
    exact heq ▸ hg.evaluate he m m ⟨rfl, hm⟩
  execute {k p s} hs := by
    rintro m _ ⟨rfl, hm⟩
    have heq := Sum.inr.inj (h k p (.execute s) m hs hm)
    exact heq ▸ hg.execute hs m m ⟨rfl, hm⟩
  run {k p body} hbody := by
    rintro m _ ⟨rfl, hm⟩
    have heq := Sum.inr.inj (h k p (.run body) m hbody hm)
    exact heq ▸ hg.run hbody m m ⟨rfl, hm⟩

/-- A computation on which evaluators agree asks nothing but what may come up where it does. -/
theorem admits_of_asks
    {β : Type} {f : Evaluator → β} {g : Evaluator} {q : Question} {n : Machine}
    (hg : I.simulation.Evaluates g g)
    (hf : ∀ g', I.simulation.Evaluates g g' → f g = f g')
    (h : Asks f g q n) :
    ∃ l r, code.admits l q ∧ I.holds l r n := by
  obtain ⟨g', halike, hne⟩ := h
  by_contra hnone
  refine hne (hf g' (evaluates_of_answer_eq hg fun l r q' m hq hm => halike q' m ?_))
  rintro ⟨⟩
  exact hnone ⟨l, r, hq, hm⟩

/-- Evaluators that agree give the same answer by one step more. -/
theorem answer_deeper_eq
    (hI : I.Lawful)
    (limits : Limits)
    {g g' : Evaluator} {q : Question} {m : Machine}
    (hg : I.simulation.Evaluates g g')
    (hq : code.admits k q)
    (hm : I.holds k p m) :
    (Evaluator.deeper limits g).answer q m = (Evaluator.deeper limits g').answer q m := by
  have hdeeper := hg.deeper limits hI.simulation
  cases q with
  | evaluate e =>
      exact congrArg Sum.inl ((hdeeper.evaluate hq m m ⟨rfl, hm⟩).eq_of_eq fun _ _ h => h.1)
  | execute s =>
      exact congrArg Sum.inr ((hdeeper.execute hq m m ⟨rfl, hm⟩).eq_of_eq fun _ _ h => h.1)
  | run body =>
      exact congrArg Sum.inr ((hdeeper.run hq m m ⟨rfl, hm⟩).eq_of_eq fun _ _ h => h.1)

/-- The invariant holds on the machine that an answer leaves behind. -/
theorem Lawful.leaves
    (hI : I.Lawful)
    (limits : Limits)
    (room : Nat)
    {q : Question} {m : Machine}
    (hq : code.admits k q)
    (hm : I.holds k p m) :
    I.holds k p ((Evaluator.ofRoom limits room).leaves q m) := by
  have hg := hI.simulation.ofRoom limits room
  cases q with
  | evaluate e => exact (hg.evaluate hq m m ⟨rfl, hm⟩).machine_related.2
  | execute s => exact (hg.execute hq m m ⟨rfl, hm⟩).machine_related.2
  | run body => exact (hg.run hq m m ⟨rfl, hm⟩).machine_related.2

/-- If a computation asks only what may come up where it does, so does all that is done on its
behalf. -/
theorem Lawful.visits_of_asks
    (hI : I.Lawful)
    {β : Type} {limits : Limits} {start : Evaluator → β}
    {top room : Nat} {q : Question} {n : Machine}
    (hstart : ∀ q n, Asks start (.ofRoom limits top) q n →
      ∃ l r, code.admits l q ∧ I.holds l r n)
    (h : Visits limits start top room q n) :
    ∃ l r, code.admits l q ∧ I.holds l r n := by
  induction h with
  | first hasks => exact hstart _ _ hasks
  | @inside room _ _ _ _ _ hasks ih =>
      obtain ⟨l, r, hq, hn⟩ := ih
      exact admits_of_asks (hI.simulation.ofRoom limits room)
        (fun g' hg' => answer_deeper_eq hI limits hg' hq hn) hasks

section Top

theorem echoValue_safe (hI : I.Lawful) (s : Stmt) :
    I.simulation.Safe k p (fun _ => True) (echoValue s) :=
  hI.safe_of_quiet (.echoValue s) fun _ => trivial

/-- The statements of a program. -/
theorem runStatements_keeps
    (hI : I.Lawful)
    {g g' : Evaluator}
    (echo : Bool)
    (statements : List Stmt)
    (h : ∀ s ∈ statements,
      I.simulation.Keeps k p (I.simulation.signal k) (g.execute s) (g'.execute s)) :
    I.simulation.Keeps k p (fun _ => True) (runStatements g echo statements)
      (runStatements g' echo statements) := by
  induction statements with
  | nil => exact Related.pure trivial
  | cons s rest ih =>
      have hrest := ih fun t ht => h t (by simp [ht])
      have hecho : I.simulation.Keeps k p (fun _ => True)
          (if echo then echoValue s >>= fun _ => runStatements g echo rest
            else runStatements g echo rest)
          (if echo then echoValue s >>= fun _ => runStatements g' echo rest
            else runStatements g' echo rest) := by
        split
        · exact Related.bind (echoValue_safe hI s) fun _ _ => hrest
        · exact hrest
      refine Related.bind (h s (by simp)) fun sig _ => ?_
      cases sig with
      | thrown t => exact Related.pure trivial
      | normal => exact hecho
      | returned v => exact hecho
      | broke => exact hecho
      | continued => exact hecho

variable {limits : Limits} {echo : Bool} {statements : List Stmt} {m : Machine}

/-- The statements of a program keep the invariant. -/
theorem Lawful.runStatements_holds
    (hI : I.Lawful)
    (limits : Limits)
    (room : Nat)
    (echo : Bool)
    (hstatements : ∀ s ∈ statements, code.stmt k s)
    (hm : I.holds k p m) :
    I.holds k p (runStatements (.ofRoom limits room) echo statements m).machine :=
  (runStatements_keeps hI echo statements
    (fun s hs => (hI.simulation.ofRoom limits room).execute (hstatements s hs)) m m
    ⟨rfl, hm⟩).machine_related.2

/-- The statements of a program ask only how one of them ends, in the setting of the program. -/
theorem Lawful.asks_runStatements
    (hI : I.Lawful)
    {room : Nat} {q : Question} {n : Machine}
    (hstatements : ∀ s ∈ statements, code.stmt k s)
    (hm : I.holds k p m)
    (h : Asks (fun g => runStatements g echo statements m) (.ofRoom limits room) q n) :
    ∃ s ∈ statements, q = .execute s ∧ I.holds k p n := by
  obtain ⟨g', halike, hne⟩ := h
  by_contra hnone
  have hkeeps : I.simulation.Keeps k p (fun _ => True)
      (runStatements (.ofRoom limits room) echo statements) (runStatements g' echo statements) := by
    refine runStatements_keeps hI echo statements fun s hs => ?_
    rintro n' _ ⟨rfl, hn'⟩
    have heq := halike (.execute s) n' (by
      rintro ⟨⟩
      exact hnone ⟨s, hs, rfl, hn'⟩)
    exact Sum.inr.inj heq ▸
      (hI.simulation.ofRoom limits room).execute (hstatements s hs) n' n' ⟨rfl, hn'⟩
  exact hne ((hkeeps m m ⟨rfl, hm⟩).eq_of_eq fun _ _ h => h.1)

/-- **Every point of a run.** Wherever the run of a program comes, the code may run there, and the
invariant holds. -/
theorem Lawful.visits
    (hI : I.Lawful)
    {top room : Nat} {q : Question} {n : Machine}
    (hstatements : ∀ s ∈ statements, code.stmt k s)
    (hm : I.holds k p m)
    (h : Visits limits (fun g => runStatements g echo statements m) top room q n) :
    ∃ l r, code.admits l q ∧ I.holds l r n := by
  refine hI.visits_of_asks (fun q n hasks => ?_) h
  obtain ⟨s, hs, rfl, hn⟩ := hI.asks_runStatements hstatements hm hasks
  exact ⟨k, p, hstatements s hs, hn⟩

end Top

end Invariance

end Lox
