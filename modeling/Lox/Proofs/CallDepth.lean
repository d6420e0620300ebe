import Lox.Proofs.Lockstep
import Lox.Proofs.Visit

/-!
# The limit on active calls

A call is entered only below the limit, so there are never more active calls than it permits. A run
that does not overflow has therefore never met the limit, and a greater one makes no difference to
it.
-/

namespace Lox

section Bound

/-- A run beside itself, as long as there are no more active calls than permitted. -/
def Limits.bounded (limits : Limits) : Relaxation where
  tight := limits
  loose := limits
  excused _ := False
  admits m := m.frames.length ≤ limits.maxCallDepth
  fuel_eq := rfl
  depth_le := Nat.le_refl _
  depth_excused := .inl rfl
  uncaught h := h.elim
  caught_eq _ := rfl
  admits_of_frames h hframes := hframes ▸ h
  admits_pushFrame _ _ hless := hless
  admits_popFrame {m} h := by
    have hlength : m.popFrame.frames.length = m.frames.length - 1 := List.length_tail
    omega

variable {limits : Limits} {g g' : Evaluator}

/-- Where nothing is excused, computations in lockstep do the same. -/
theorem Relaxation.Follows.eq
    {α : Type}
    {c c' : Eval α}
    {m : Machine}
    (h : limits.bounded.Follows c c')
    (hm : m.frames.length ≤ limits.maxCallDepth) :
    c m = c' m := by
  rcases h m hm with ⟨_, _, hexcused⟩ | ⟨heq, -⟩
  · exact hexcused.elim
  · exact heq

/-- Evaluators are in lockstep if they answer alike as long as the limit is kept. -/
theorem Relaxation.Matches.of_answer_eq
    (hg : limits.bounded.Matches g g)
    (h : ∀ q m, m.frames.length ≤ limits.maxCallDepth → g.answer q m = g'.answer q m) :
    limits.bounded.Matches g g' where
  evaluate e m hm := by
    have heq := Sum.inl.inj (h (.evaluate e) m hm)
    exact heq ▸ hg.evaluate e m hm
  execute s m hm := by
    have heq := Sum.inr.inj (h (.execute s) m hm)
    exact heq ▸ hg.execute s m hm
  run body m hm := by
    have heq := Sum.inr.inj (h (.run body) m hm)
    exact heq ▸ hg.run body m hm

/-- A computation on which evaluators in lockstep agree asks nothing while there are too many active
calls. -/
theorem frames_le_of_asks
    {β : Type} {f : Evaluator → β} {q : Question} {n : Machine}
    (hg : limits.bounded.Matches g g)
    (hf : ∀ g', limits.bounded.Matches g g' → f g = f g')
    (h : Asks f g q n) :
    n.frames.length ≤ limits.maxCallDepth := by
  obtain ⟨g', halike, hne⟩ := h
  by_contra hmany
  refine hne (hf g' (hg.of_answer_eq fun q' m hm => halike q' m ?_))
  rintro ⟨⟩
  exact hmany hm

/-- Evaluators in lockstep give the same answer by one step more. -/
theorem Relaxation.Matches.answer_deeper_eq
    {q : Question} {n : Machine}
    (hg : limits.bounded.Matches g g')
    (hn : n.frames.length ≤ limits.maxCallDepth) :
    (Evaluator.deeper limits g).answer q n = (Evaluator.deeper limits g').answer q n := by
  have hdeeper := hg.deeper
  cases q with
  | evaluate e => exact congrArg Sum.inl ((hdeeper.evaluate e).eq hn)
  | execute s => exact congrArg Sum.inr ((hdeeper.execute s).eq hn)
  | run body => exact congrArg Sum.inr ((hdeeper.run body).eq hn)

/-- Wherever a run comes, there are no more active calls than permitted. -/
theorem frames_le_of_visits
    {echo : Bool} {statements : List Stmt} {top room : Nat} {q : Question} {m n : Machine}
    (hm : m.frames.length ≤ limits.maxCallDepth)
    (h : Visits limits (fun g => Eval.runStatements g echo statements m) top room q n) :
    n.frames.length ≤ limits.maxCallDepth := by
  have hself (room : Nat) :
      limits.bounded.Matches (.ofRoom limits room) (.ofRoom limits room) :=
    .ofRoom (.inl rfl)
  induction h with
  | first hasks =>
      exact frames_le_of_asks (hself _)
        (fun _ hg' => (limits.bounded.congruence.runStatements hg' echo statements).eq hm) hasks
  | inside _ hasks hn =>
      exact frames_le_of_asks (hself _) (fun _ hg' => hg'.answer_deeper_eq hn) hasks

end Bound

section Raising

/-- A run beside one in which more calls may be active, as long as it does not overflow. -/
def Limits.raised {limits : Limits} {depth : Nat} (h : limits.maxCallDepth ≤ depth) :
    Relaxation where
  tight := limits
  loose := { limits with maxCallDepth := depth }
  excused fault := fault.kind = .stackOverflow
  admits _ := True
  fuel_eq := rfl
  depth_le := h
  depth_excused := .inr fun _ hkind => hkind
  uncaught hkind := by simp [hkind]
  caught_eq _ := rfl
  admits_of_frames _ _ := trivial
  admits_pushFrame _ _ _ := trivial
  admits_popFrame _ := trivial

end Raising

end Lox
