import Lox.Proofs.Journal.Growth

/-!
# Steps that retain instances

Functions and instances are never removed. Of the operations that run no code of the program, only
the one that sets a field does anything to an instance that is there, and only the declaration of a
class makes methods. All the others, and the declarations, are steps that retain what there is
(`Machine.Retains`).
-/

namespace Lox

/-- The method is marked as an initializer exactly if that is its name. -/
def MethodObject.IsMarked (f : MethodObject) : Prop :=
  f.isInitializer = (f.name == "init")

/-- The later machine has the functions and instances of the earlier one. New instances have no
fields, and new methods are marked. -/
structure Machine.Retains (m n : Machine) : Prop where
  functions : ∀ {id : FunctionId} {f : FunctionObject},
    m.functions[id]? = some f → n.functions[id]? = some f
  instances : ∀ {id : InstanceId} {i : InstanceObject},
    m.instances[id]? = some i → n.instances[id]? = some i
  fresh : ∀ {id : InstanceId} {i : InstanceObject},
    n.instances[id]? = some i → m.instances[id]? = some i ∨ i.fields = []
  marked : ∀ f ∈ n.methods, f ∈ m.methods ∨ f.IsMarked

namespace Machine.Retains

variable {m n o : Machine}

theorem of_eq
    (hfunctions : n.functions = m.functions)
    (hinstances : n.instances = m.instances)
    (hmethods : n.methods = m.methods) :
    m.Retains n where
  functions h := hfunctions ▸ h
  instances h := hinstances ▸ h
  fresh h := .inl (hinstances ▸ h)
  marked _ h := .inl (hmethods ▸ h)

theorem refl (m : Machine) : m.Retains m :=
  of_eq rfl rfl rfl

theorem trans (h : m.Retains n) (h' : n.Retains o) : m.Retains o where
  functions hf := h'.functions (h.functions hf)
  instances hi := h'.instances (h.instances hi)
  fresh hi := (h'.fresh hi).elim h.fresh .inr
  marked f hf := (h'.marked f hf).elim (h.marked f) .inr

theorem newFunction (m : Machine) (f : FunctionObject) : m.Retains (m.newFunction f).2 where
  functions h := getElem?_push_of_some _ h
  instances h := h
  fresh h := .inl h
  marked _ h := .inl h

theorem newInstance (m : Machine) (classId : ClassId) : m.Retains (m.newInstance classId).2 where
  functions h := h
  instances h := getElem?_push_of_some _ h
  fresh {id i} h := by
    simp only [Machine.newInstance, Array.getElem?_push] at h
    split at h
    · cases h
      exact .inr rfl
    · exact .inl h
  marked _ h := .inl h

/-- The methods of a class that is declared are marked. -/
theorem newMethod
    (m : Machine)
    (d : FunctionDecl)
    (scope : ScopeId)
    (owner : ClassId) :
    m.Retains (m.newMethod ⟨d.name, d.params, d.body, scope, owner, d.name == "init"⟩).2 where
  functions h := h
  instances h := h
  fresh h := .inl h
  marked f hf := by
    rcases Array.mem_push.mp hf with hf | rfl
    · exact .inl hf
    · exact .inr rfl

instance : IsPreorder Machine Machine.Retains where
  refl := refl
  trans _ _ _ := trans

instance : Eval.Declaring Machine.Retains where
  contents _ _ _ _ _ _ := of_eq rfl rfl rfl
  bindMethod m _ _ := newFunction m _
  lastValue _ _ := of_eq rfl rfl rfl
  define _ _ := of_eq rfl rfl rfl
  newClosure m _ _ _ _ := newFunction m _
  bindSuper _ _ := of_eq rfl rfl rfl
  newMethod := newMethod
  newClass _ _ := of_eq rfl rfl rfl

end Machine.Retains

end Lox
