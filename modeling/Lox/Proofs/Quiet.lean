import Lox.Proofs.Agreement
import Mathlib.Order.Defs.Unbundled

/-!
# Steps of computations

Much of what is known of a computation compares the machine that it leaves behind with the one on
which it began. If such a comparison is a preorder, it is a kind of *step*: what is put together from
computations that take a step takes one as well (`Eval.Steps`).

The first kind are the *quiet* steps. Many operations run no code of the program and leave alone all
that code depends on to be placed well: the scopes, the active calls, the classes with their methods,
and the functions with their scopes. They only read, print, change the contents of lists, maps and
instances, or make new ones.
-/

namespace Lox

namespace Eval

/-- Wherever the computation begins, it takes the machine a step further. -/
def Steps {α : Type} (step : Machine → Machine → Prop) (c : Eval α) : Prop :=
  ∀ m, step m (c m).machine

namespace Steps

variable {α β : Type} {step : Machine → Machine → Prop} [IsPreorder Machine step] {c : Eval α}

theorem stop (why : Interruption) : Steps step (Eval.stop why : Eval α) :=
  fun m => refl_of step m

theorem pure (a : α) : Steps step (pure a : Eval α) :=
  fun m => refl_of step m

theorem ask (question : Machine → α) : Steps step (Eval.ask question) :=
  fun m => refl_of step m

omit [IsPreorder Machine step] in
theorem update
    {change : Machine → Machine}
    (h : ∀ m, step m (change m)) :
    Steps step (Eval.update change) :=
  h

omit [IsPreorder Machine step] in
theorem make
    {maker : Machine → α × Machine}
    (h : ∀ m, step m (maker m).2) :
    Steps step (Eval.make maker) :=
  h

theorem ofExcept (result : Except Fault α) : Steps step (Eval.ofExcept result) := by
  cases result with
  | ok a => exact pure a
  | error fault => exact stop _

theorem attempt
    {operation : Machine → Attempt Machine α}
    (h : ∀ m, step m (operation m).2) :
    Steps step (Eval.attempt operation) :=
  fun m => trans_of step (h m) (ofExcept (operation m).1 (operation m).2)

theorem bind {f : α → Eval β} (hc : Steps step c) (hf : ∀ a, Steps step (f a)) :
    Steps step (c >>= f) := by
  intro m
  have h := hc m
  rw [bind_apply]
  cases hm : c m with
  | done a n =>
      rw [hm] at h
      exact trans_of step h (hf a n)
  | stopped why n =>
      rw [hm] at h
      exact h

theorem callResult (signal : Signal) : Steps step (Eval.callResult signal) := by
  cases signal with
  | thrown t => exact stop _
  | normal | returned | broke | continued => exact pure _

omit [IsPreorder Machine step] in
/-- Locating a fault does nothing to the machine. -/
theorem locating (hc : Steps step c) (span : Span) : Steps step (Eval.locating span c) := by
  intro m
  have h := hc m
  unfold Eval.locating
  split
  · next hm =>
      rw [hm] at h
      exact h
  · exact h

end Steps

end Eval

/-- The later machine has the same scopes, calls, methods and classes, and no new function but
methods that were bound to an instance. -/
structure Machine.Quiet (m n : Machine) : Prop where
  scopes : n.scopes = m.scopes
  current : n.current = m.current
  frames : n.frames = m.frames
  methods : n.methods = m.methods
  classes : n.classes = m.classes
  functions : ∀ f ∈ n.functions, f ∈ m.functions ∨ ∃ receiver method, f = .bound receiver method

namespace Machine.Quiet

theorem refl (m : Machine) : Machine.Quiet m m :=
  ⟨rfl, rfl, rfl, rfl, rfl, fun _ h => .inl h⟩

theorem trans {m n o : Machine} (h : Machine.Quiet m n) (h' : Machine.Quiet n o) :
    Machine.Quiet m o where
  scopes := h'.scopes.trans h.scopes
  current := h'.current.trans h.current
  frames := h'.frames.trans h.frames
  methods := h'.methods.trans h.methods
  classes := h'.classes.trans h.classes
  functions f hf := (h'.functions f hf).elim (h.functions f) .inr

instance : IsPreorder Machine Machine.Quiet where
  refl := refl
  trans _ _ _ := trans

/-- A change to anything but scopes, calls, functions, methods and classes is quiet. -/
theorem of_eq
    {m n : Machine}
    (hscopes : n.scopes = m.scopes)
    (hcurrent : n.current = m.current)
    (hframes : n.frames = m.frames)
    (hmethods : n.methods = m.methods)
    (hclasses : n.classes = m.classes)
    (hfunctions : n.functions = m.functions) :
    Machine.Quiet m n :=
  ⟨hscopes, hcurrent, hframes, hmethods, hclasses, fun _ h => .inl (hfunctions ▸ h)⟩

/-- Binding a method to an instance is quiet. -/
theorem newFunction_bound (m : Machine) (receiver : InstanceId) (method : MethodId) :
    Machine.Quiet m (m.newFunction (.bound receiver method)).2 where
  scopes := rfl
  current := rfl
  frames := rfl
  methods := rfl
  classes := rfl
  functions f hf := by
    rcases Array.mem_push.mp hf with hf | rfl
    · exact .inl hf
    · exact .inr ⟨receiver, method, rfl⟩

end Machine.Quiet

/-- The operation leaves alone what code depends on to be placed well. -/
abbrev Eval.Quiet {α : Type} (c : Eval α) : Prop :=
  c.Steps Machine.Quiet

end Lox
