import Lox.Eval.Step

/-!
# Agreement of computations

Two computations are compared on two machines. `Outcome.Agree` says that both end in the same way,
with the same result or for the same reason, and on machines that are related again.
`Eval.Related` says so of all related machines to start from. The rules below follow the ways in
which computations are built.

With equality as the relation between machines these are rules for properties that hold throughout
one computation.
-/

namespace Lox

namespace Outcome

variable {α : Type}

/-- The machine that a computation leaves behind. -/
def machine : Outcome α → Machine
  | done _ m => m
  | stopped _ m => m

/-- How a computation ends, apart from the machine that it leaves behind. -/
def ending : Outcome α → Except Interruption α
  | done a _ => .ok a
  | stopped why _ => .error why

/-- Go on after an outcome: with its result, unless the computation was stopped. -/
def andThen {β : Type} (o : Outcome α) (f : α → Eval β) : Outcome β :=
  match o with
  | done a m => f a m
  | stopped why m => stopped why m

/-- Change the machine of an outcome, whichever way the computation ended. -/
def onMachine (change : Machine → Machine) : Outcome α → Outcome α
  | done a m => done a (change m)
  | stopped why m => stopped why (change m)

/-- Two outcomes agree: the results are the same and satisfy `V`, or the reasons to stop are the
same and satisfy `W`; the machines are related by `R` in both cases. -/
inductive Agree
    (R : Machine → Machine → Prop)
    (V : α → Prop)
    (W : Interruption → Prop) :
    Outcome α → Outcome α → Prop
  | done {a : α} {m m' : Machine} :
      V a → R m m' → Agree R V W (.done a m) (.done a m')
  | stopped {why : Interruption} {m m' : Machine} :
      W why → R m m' → Agree R V W (.stopped why m) (.stopped why m')

variable {R R' : Machine → Machine → Prop} {V V' : α → Prop} {W : Interruption → Prop}

@[simp] theorem machine_done (a : α) (m : Machine) : (done a m).machine = m :=
  rfl

@[simp] theorem machine_stopped (why : Interruption) (m : Machine) :
    (stopped why m : Outcome α).machine = m :=
  rfl

namespace Agree

theorem ending_eq {o o' : Outcome α} (h : Agree R V W o o') : o.ending = o'.ending := by
  cases h <;> rfl

theorem machine_related {o o' : Outcome α} (h : Agree R V W o o') :
    R o.machine o'.machine := by
  cases h <;> assumption

/-- The result of a computation that is done. -/
theorem holds_of_done
    {o o' : Outcome α} {a : α} {m : Machine}
    (h : Agree R V W o o')
    (ho : o = .done a m) :
    V a := by
  subst ho
  cases h
  assumption

/-- Agreement is kept when less is asked of the results and machines. -/
theorem weaken
    {o o' : Outcome α}
    (h : Agree R V W o o')
    (hR : ∀ m m', R m m' → R' m m')
    (hV : ∀ a, V a → V' a) :
    Agree R' V' W o o' := by
  cases h with
  | done ha hm => exact .done (hV _ ha) (hR _ _ hm)
  | stopped hw hm => exact .stopped hw (hR _ _ hm)

/-- What follows agreeing outcomes agrees if it agrees on every result. -/
theorem andThen
    {β : Type} {U : β → Prop} {o o' : Outcome α} {f f' : α → Eval β}
    (h : Agree R V W o o')
    (hR : ∀ m m', R m m' → R' m m')
    (hf : ∀ a m m', V a → R m m' → Agree R' U W (f a m) (f' a m')) :
    Agree R' U W (o.andThen f) (o'.andThen f') := by
  cases h with
  | done ha hm => exact hf _ _ _ ha hm
  | stopped hw hm => exact .stopped hw (hR _ _ hm)

theorem onMachine
    {o o' : Outcome α} {change change' : Machine → Machine}
    (h : Agree R V W o o')
    (hR : ∀ m m', R m m' → R' (change m) (change' m')) :
    Agree R' V W (o.onMachine change) (o'.onMachine change') := by
  cases h with
  | done ha hm => exact .done ha (hR _ _ hm)
  | stopped hw hm => exact .stopped hw (hR _ _ hm)

/-- Outcomes that agree under equality of machines are equal. -/
theorem eq_of_eq
    {o o' : Outcome α}
    (h : Agree R V W o o')
    (hR : ∀ m m', R m m' → m = m') :
    o = o' := by
  cases h with
  | done _ hm => rw [hR _ _ hm]
  | stopped _ hm => rw [hR _ _ hm]

end Agree

end Outcome

namespace Eval

variable {α β : Type}

/-- Started on machines related by `R`, the computations end alike, on machines related by `R'`. -/
def Related
    (R R' : Machine → Machine → Prop)
    (V : α → Prop)
    (W : Interruption → Prop)
    (p p' : Eval α) :
    Prop :=
  ∀ m m', R m m' → Outcome.Agree R' V W (p m) (p' m')

theorem bind_apply (p : Eval α) (f : α → Eval β) (m : Machine) :
    (p >>= f) m = (p m).andThen f :=
  rfl

namespace Related

variable {R R' R₁ R₂ : Machine → Machine → Prop}
variable {V V' : α → Prop} {U : β → Prop} {W : Interruption → Prop}

theorem pure {a : α} (ha : V a) : Related R R V W (pure a) (pure a) :=
  fun _ _ hm => .done ha hm

/-- Two steps one after the other; what stops the first one stops both. -/
theorem andThen
    {p p' : Eval α} {f f' : α → Eval β}
    (hp : Related R R₁ V W p p')
    (hR : ∀ m m', R₁ m m' → R₂ m m')
    (hf : ∀ a, V a → Related R₁ R₂ U W (f a) (f' a)) :
    Related R R₂ U W (p >>= f) (p' >>= f') := by
  intro m m' hm
  rw [bind_apply, bind_apply]
  exact (hp m m' hm).andThen hR fun a n n' ha hn => hf a ha n n' hn

/-- Two steps between which the machines are related as before. -/
theorem bind
    {p p' : Eval α} {f f' : α → Eval β}
    (hp : Related R R V W p p')
    (hf : ∀ a, V a → Related R R U W (f a) (f' a)) :
    Related R R U W (p >>= f) (p' >>= f') :=
  hp.andThen (fun _ _ hm => hm) hf

theorem weaken
    {p p' : Eval α}
    (h : Related R R₁ V W p p')
    (hR : ∀ m m', R₁ m m' → R₂ m m')
    (hV : ∀ a, V a → V' a) :
    Related R R₂ V' W p p' :=
  fun m m' hm => (h m m' hm).weaken hR hV

/-- Less is asked of the results. -/
theorem conclude
    {p p' : Eval α}
    (h : Related R R' V W p p')
    (hV : ∀ a, V a → V' a) :
    Related R R' V' W p p' :=
  h.weaken (fun _ _ hm => hm) hV

theorem stop {why : Interruption} (hw : W why) :
    Related R R V W (Eval.stop why) (Eval.stop why) :=
  fun _ _ hm => .stopped hw hm

/-- A question that related machines answer alike. -/
theorem ask
    {question : Machine → α}
    (h : ∀ m m', R m m' → question m = question m' ∧ V (question m)) :
    Related R R V W (Eval.ask question) (Eval.ask question) := by
  intro m m' hm
  obtain ⟨heq, hv⟩ := h m m' hm
  simp only [Eval.ask, ← heq]
  exact .done hv hm

theorem update
    {change : Machine → Machine} {V : Unit → Prop}
    (hV : V ())
    (h : ∀ m m', R m m' → R (change m) (change m')) :
    Related R R V W (Eval.update change) (Eval.update change) :=
  fun m m' hm => .done hV (h m m' hm)

/-- An object that related machines make alike. -/
theorem make
    {maker : Machine → α × Machine}
    (h : ∀ m m', R m m' →
      (maker m).1 = (maker m').1 ∧ V (maker m).1 ∧ R (maker m).2 (maker m').2) :
    Related R R V W (Eval.make maker) (Eval.make maker) := by
  intro m m' hm
  obtain ⟨heq, hv, hn⟩ := h m m' hm
  simp only [Eval.make, ← heq]
  exact .done hv hn

theorem ofExcept
    {result : Except Fault α}
    (hV : ∀ a, result = .ok a → V a)
    (hW : ∀ f, W (.failed f)) :
    Related R R V W (Eval.ofExcept result) (Eval.ofExcept result) := by
  cases result with
  | ok a => exact pure (hV a rfl)
  | error fault => exact stop (hW _)

/-- An operation that related machines carry out alike. -/
theorem attempt
    {operation : Machine → Attempt Machine α}
    (hW : ∀ f, W (.failed f))
    (h : ∀ m m', R m m' →
      (operation m).1 = (operation m').1 ∧
        (∀ a, (operation m).1 = .ok a → V a) ∧ R (operation m).2 (operation m').2) :
    Related R R V W (Eval.attempt operation) (Eval.attempt operation) := by
  intro m m' hm
  obtain ⟨heq, hv, hn⟩ := h m m' hm
  simp only [Eval.attempt, ← heq]
  exact ofExcept hv hW _ _ hn

/-- Locating a fault changes no more than its label. -/
theorem locating
    {p p' : Eval α} {span : Span}
    (h : Related R R' V W p p')
    (hW : ∀ f, W (.failed f)) :
    Related R R' V W (Eval.locating span p) (Eval.locating span p') := by
  intro m m' hm
  unfold Eval.locating
  have h := h m m' hm
  generalize p m = o, p' m' = o' at h
  cases h with
  | done ha hn => exact .done ha hn
  | @stopped why _ _ hw hn =>
      cases why with
      | failed f => exact .stopped (hW _) hn
      | thrown t => exact .stopped hw hn
      | exhausted => exact .stopped hw hn
      | outOfFuel => exact .stopped hw hn

/-- The end of a statement, on machines with the same active calls. -/
theorem settle
    {p p' : Eval Signal} {V : Signal → Prop} {catchFaults : Bool} {span : Span}
    (h : Related R R' V W p p')
    (hframes : ∀ m m', R' m m' → m.frames = m'.frames)
    (hW : ∀ f, W (.failed f))
    (hthrown : ∀ t, W (.thrown t) → V (.thrown t))
    (hcaught : ∀ text trace span, V (.thrown ⟨.string text, trace, span⟩)) :
    Related R R' V W (Eval.settle catchFaults span p) (Eval.settle catchFaults span p') := by
  intro m m' hm
  unfold Eval.settle
  have h := h m m' hm
  generalize p m = o, p' m' = o' at h
  cases h with
  | done ha hn => exact .done ha hn
  | @stopped why n n' hw hn =>
      cases why with
      | thrown t => exact .done (hthrown t hw) hn
      | failed f =>
          simp only [hframes n n' hn]
          split
          · exact .done (hcaught _ _ _) hn
          · exact .stopped (hW _) hn
      | exhausted => exact .stopped hw hn
      | outOfFuel => exact .stopped hw hn

end Related

end Eval

end Lox
