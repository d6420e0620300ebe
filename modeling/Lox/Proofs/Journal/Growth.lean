import Lox.Proofs.Journal

/-!
# What a run adds

Classes and methods are never changed or removed. `Machine.Grows` compares two machines in this
respect, and `Growing` says so of the machines of a journal, one after the other.
-/

namespace Lox

theorem getElem?_push_of_some
    {α : Type}
    {xs : Array α}
    {i : Nat}
    {x : α}
    (y : α)
    (h : xs[i]? = some x) :
    (xs.push y)[i]? = some x := by
  obtain ⟨hi, hx⟩ := Array.getElem?_eq_some_iff.mp h
  rw [Array.getElem?_push_lt hi, hx]

/-- The later machine has all classes and methods of the earlier one, unchanged. -/
structure Machine.Grows (m n : Machine) : Prop where
  classes : ∀ {id : ClassId} {c : ClassObject}, m.classes[id]? = some c → n.classes[id]? = some c
  methods : ∀ {id : MethodId} {f : MethodObject}, m.methods[id]? = some f → n.methods[id]? = some f

namespace Machine.Grows

variable {m n o : Machine}

theorem of_eq (hclasses : n.classes = m.classes) (hmethods : n.methods = m.methods) :
    m.Grows n :=
  ⟨fun h => hclasses ▸ h, fun h => hmethods ▸ h⟩

theorem refl (m : Machine) : m.Grows m :=
  of_eq rfl rfl

theorem trans (h : m.Grows n) (h' : n.Grows o) : m.Grows o :=
  ⟨fun hc => h'.classes (h.classes hc), fun hf => h'.methods (h.methods hf)⟩

theorem newMethod (m : Machine) (f : MethodObject) : m.Grows (m.newMethod f).2 where
  classes h := h
  methods h := getElem?_push_of_some _ h

theorem newClass (m : Machine) (c : ClassObject) : m.Grows (m.newClass c).2 where
  classes h := getElem?_push_of_some _ h
  methods h := h

instance : IsPreorder Machine Machine.Grows where
  refl := refl
  trans _ _ _ := trans

instance : Eval.Declaring Machine.Grows where
  contents _ _ _ _ _ _ := of_eq rfl rfl
  bindMethod _ _ _ := of_eq rfl rfl
  lastValue _ _ := of_eq rfl rfl
  define _ _ := of_eq rfl rfl
  newClosure _ _ _ _ _ := of_eq rfl rfl
  bindSuper _ _ := of_eq rfl rfl
  newMethod m _ _ _ := newMethod m _
  newClass := newClass

end Machine.Grows

/-- The machines differ in nothing but the current scope and the active calls. -/
def Machine.SameStore (m n : Machine) : Prop :=
  n = { m with current := n.current, frames := n.frames }

namespace Machine.SameStore

variable {m n o : Machine}

theorem refl (m : Machine) : m.SameStore m :=
  rfl

theorem trans (h : m.SameStore n) (h' : n.SameStore o) : m.SameStore o := by
  unfold SameStore at *
  rw [h', h]

theorem grows (h : m.SameStore n) : m.Grows n := by
  rw [h]
  exact .of_eq rfl rfl

theorem leave (m : Machine) (previous : ScopeId) : m.SameStore (m.leave previous) :=
  rfl

theorem popFrame (m : Machine) : m.SameStore m.popFrame :=
  rfl

end Machine.SameStore

/-- From one machine by way of the events of a journal to another, classes and methods are only
added. -/
inductive Growing : Machine → List Event → Machine → Prop
  | done
      {m n : Machine}
      (h : m.Grows n) :
      Growing m [] n
  | step
      {m n : Machine}
      {e : Event}
      {journal : List Event}
      (h : m.Grows e.machine)
      (hrest : Growing e.machine journal n) :
      Growing m (e :: journal) n

namespace Growing

variable {m n o : Machine} {journal later : List Event}

theorem after (h : Growing n journal o) (hm : m.Grows n) : Growing m journal o := by
  cases h with
  | done h => exact .done (hm.trans h)
  | step h hrest => exact .step (hm.trans h) hrest

theorem append (h : Growing m journal n) (hlater : Growing n later o) :
    Growing m (journal ++ later) o := by
  induction h with
  | done h => exact hlater.after h
  | step h _ ih => exact .step h (ih hlater)

/-- What there is at one time is also there at all later times. -/
theorem pairwise (h : Growing m journal n) :
    (m :: (journal.map Event.machine ++ [n])).Pairwise Machine.Grows := by
  induction h with
  | done h => simpa using h
  | step h _ ih =>
      refine .cons (fun o ho => ?_) ih
      rcases List.mem_cons.mp ho with rfl | ho
      · exact h
      · exact h.trans (List.rel_of_pairwise_cons ih ho)

end Growing

end Lox
