import Lox.Proofs.Agreement

/-!
# Steps in turn

`inTurn` takes steps one after the other and collects their results; a step that fails is a step
like any other. `inTurn_view` carries what one step does on a view of the state over to all of them.
-/

namespace Lox

variable {ι σ τ α β : Type}

/-- Take the steps in turn, each from the state that the one before has left, and collect their
results. -/
def inTurn (step : ι → σ → α × σ) : List ι → σ → List α × σ
  | [], s => ([], s)
  | i :: rest, s =>
      let (a, s) := step i s
      let (as, s) := inTurn step rest s
      (a :: as, s)

/-- If each step has on a view of the state the same result as on the state, and the same effect,
then so have the steps in turn. -/
theorem inTurn_view
    {step : ι → σ → α × σ} {step' : ι → τ → β × τ}
    (view : σ → τ)
    (result : β → α)
    (admits : ι → Prop)
    (invariant : σ → Prop)
    (hstep : ∀ i s, admits i → invariant s →
      (step i s).1 = result (step' i (view s)).1 ∧ view (step i s).2 = (step' i (view s)).2 ∧
        invariant (step i s).2)
    (is : List ι)
    (s : σ)
    (his : ∀ i ∈ is, admits i)
    (hs : invariant s) :
    (inTurn step is s).1 = (inTurn step' is (view s)).1.map result ∧
      view (inTurn step is s).2 = (inTurn step' is (view s)).2 ∧
      invariant (inTurn step is s).2 := by
  induction is generalizing s with
  | nil => exact ⟨rfl, rfl, hs⟩
  | cons i rest ih =>
      obtain ⟨hresult, hview, hinvariant⟩ := hstep i s (his i (by simp)) hs
      have hrest := ih (step i s).2 (fun j hj => his j (by simp [hj])) hinvariant
      rw [hview] at hrest
      obtain ⟨hresults, hviews, hinvariants⟩ := hrest
      refine ⟨?_, hviews, hinvariants⟩
      simp only [inTurn, List.map_cons, hresult, hresults]

namespace Eval

/-- A computation as a step: how it ends, and the machine that it leaves behind. -/
def step (run : ι → Eval α) (i : ι) (m : Machine) : Except Interruption α × Machine :=
  ((run i m).ending, (run i m).machine)

end Eval

/-- A fault before it is located stops a computation. -/
def Fault.interruption (fault : Fault) : Interruption :=
  .failed ⟨fault, none, []⟩

theorem Eval.ending_ofExcept (result : Except Fault α) (m : Machine) :
    (Eval.ofExcept result m).ending = result.mapError Fault.interruption := by
  cases result <;> rfl

theorem Eval.machine_ofExcept (result : Except Fault α) (m : Machine) :
    (Eval.ofExcept result m).machine = m := by
  cases result <;> rfl

end Lox
