import Lox.Proofs.Simulation

/-!
# The heap

All objects of a machine, whatever their kind, under references of one type, and the references
that values and objects contain. An operation on one object is described by `Machine.Puts`: what
is under one reference changes, and everything else is as before.
-/

namespace Lox

/-- The stores of a machine. -/
inductive Store
  | scopes | functions | methods | natives | classes | instances | lists | maps
deriving DecidableEq

/-- A reference to an object: its store and its number there. -/
structure Ref where
  store : Store
  id : Nat
deriving DecidableEq

/-- An object of any kind. -/
inductive Object
  | scope (s : Scope)
  | function (f : FunctionObject)
  | method (f : MethodObject)
  | native (f : NativeObject)
  | class (c : ClassObject)
  | instance (i : InstanceObject)
  | list (elements : Sequence)
  | map (entries : Dictionary)

/-- The object that a value refers to. -/
def Value.refs : Value → List Ref
  | nil | boolean _ | number _ | string _ => []
  | function id => [⟨.functions, id⟩]
  | native id => [⟨.natives, id⟩]
  | «class» id => [⟨.classes, id⟩]
  | «instance» id => [⟨.instances, id⟩]
  | list id => [⟨.lists, id⟩]
  | map id => [⟨.maps, id⟩]

/-- The references in an object. -/
def Object.refs : Object → List Ref
  | scope s => s.parent.toList.map (⟨.scopes, ·⟩) ++ s.bindings.flatMap (·.value.refs)
  | function (.closure _ _ _ outer) => [⟨.scopes, outer⟩]
  | function (.bound receiver f) => [⟨.instances, receiver⟩, ⟨.methods, f⟩]
  | method f => [⟨.scopes, f.scope⟩, ⟨.classes, f.owner⟩]
  | native (.builtin _) => []
  | native (.listMethod elements _) => [⟨.lists, elements⟩]
  | native (.mapMethod entries _) => [⟨.maps, entries⟩]
  | «class» c =>
      c.superclass.toList.map (⟨.classes, ·⟩) ++ c.methods.map (⟨.methods, ·.2⟩)
  | «instance» i => ⟨.classes, i.classId⟩ :: i.fields.flatMap (·.2.refs)
  | list elements => elements.toList.flatMap Value.refs
  | map entries => entries.flatMap (·.2.refs)

theorem Value.refs_of_isPlain {v : Value} (h : v.isPlain = true) : v.refs = [] := by
  cases v <;> first | rfl | cases h

namespace Machine

variable (m : Machine)

/-- The object under a reference, if it is in use. -/
def object? : Ref → Option Object
  | ⟨.scopes, id⟩ => m.scopes.all[id]?.map .scope
  | ⟨.functions, id⟩ => m.functions[id]?.map .function
  | ⟨.methods, id⟩ => m.methods[id]?.map .method
  | ⟨.natives, id⟩ => m.natives[id]?.map .native
  | ⟨.classes, id⟩ => m.classes[id]?.map .class
  | ⟨.instances, id⟩ => m.instances[id]?.map .instance
  | ⟨.lists, id⟩ => m.lists[id]?.map .list
  | ⟨.maps, id⟩ => m.maps[id]?.map .map

/-- The references that can be reached from some others. -/
inductive Reaches (roots : List Ref) : Ref → Prop
  | root {r : Ref} : r ∈ roots → Reaches roots r
  | inside {r t : Ref} {o : Object} :
      Reaches roots r → m.object? r = some o → t ∈ o.refs → Reaches roots t

/-- The number of objects in a store. -/
def count : Store → Nat
  | .scopes => m.scopes.all.size
  | .functions => m.functions.size
  | .methods => m.methods.size
  | .natives => m.natives.size
  | .classes => m.classes.size
  | .instances => m.instances.size
  | .lists => m.lists.size
  | .maps => m.maps.size

/-- The references in use are numbered from zero. -/
theorem isSome_object? (store : Store) (id : Nat) :
    (m.object? ⟨store, id⟩).isSome = true ↔ id < m.count store := by
  cases store <;> simp [object?, count]

/-- The next reference is not in use. -/
theorem object?_count (store : Store) : m.object? ⟨store, m.count store⟩ = none := by
  have h := mt (m.isSome_object? store (m.count store)).mp (Nat.lt_irrefl _)
  simpa using h

/-- Machines on which the same references are in use number their next objects alike. -/
theorem count_eq
    {m m' : Machine}
    (h : ∀ r, (m.object? r).isSome = (m'.object? r).isSome)
    (store : Store) :
    m.count store = m'.count store := by
  have hiff (id : Nat) : id < m.count store ↔ id < m'.count store := by
    rw [← isSome_object?, ← isSome_object?, h]
  exact Nat.le_antisymm (Nat.le_of_not_lt fun hlt => Nat.lt_irrefl _ ((hiff _).mp hlt))
    (Nat.le_of_not_lt fun hlt => Nat.lt_irrefl _ ((hiff _).mpr hlt))

/-- On machines with equally many objects in each store the same references are in use. -/
theorem uses_eq
    {m m' : Machine}
    (h : ∀ store, m.count store = m'.count store) :
    ∀ r, (m.object? r).isSome = (m'.object? r).isSome := by
  rintro ⟨store, id⟩
  rw [Bool.eq_iff_iff, isSome_object?, isSome_object?, h]

/-- What can be reached lies in every set of references that contains the roots and is closed. -/
theorem Reaches.mem
    {m : Machine} {roots set : List Ref}
    (hroots : roots ⊆ set)
    (hclosed : ∀ r ∈ set, ∀ o ∈ m.object? r, o.refs ⊆ set) :
    ∀ {r : Ref}, m.Reaches roots r → r ∈ set := by
  intro r hr
  induction hr with
  | root hr => exact hroots hr
  | inside _ ho ht ih => exact hclosed _ ih _ ho ht

/-- Only what is under the reference changes; what may be said of the calls, the output and the
clock stays as well. -/
structure Puts (r : Ref) (x : Option Object) (m n : Machine) : Prop where
  object : ∀ t, n.object? t = if t = r then x else m.object? t
  current : n.current = m.current
  frames : n.frames = m.frames
  output : n.output = m.output
  clock : n.clock = m.clock
  readings : n.readings = m.readings

theorem map_getElem?_push
    {α : Type} (xs : Array α) (x : α) (f : α → Object) (id : Nat) :
    (xs.push x)[id]?.map f = if id = xs.size then some (f x) else xs[id]?.map f := by
  rw [Array.getElem?_push]
  split <;> rfl

section Create

theorem puts_newList (elements : Sequence) :
    Puts ⟨.lists, m.count .lists⟩ (some (.list elements)) m (m.newList elements).2 := by
  refine ⟨?_, rfl, rfl, rfl, rfl, rfl⟩
  rintro ⟨store, id⟩
  cases store <;> simp [object?, newList, count, map_getElem?_push]

theorem puts_newMap (entries : Dictionary) :
    Puts ⟨.maps, m.count .maps⟩ (some (.map entries)) m (m.newMap entries).2 := by
  refine ⟨?_, rfl, rfl, rfl, rfl, rfl⟩
  rintro ⟨store, id⟩
  cases store <;> simp [object?, newMap, count, map_getElem?_push]

theorem puts_newFunction (f : FunctionObject) :
    Puts ⟨.functions, m.count .functions⟩ (some (.function f)) m (m.newFunction f).2 := by
  refine ⟨?_, rfl, rfl, rfl, rfl, rfl⟩
  rintro ⟨store, id⟩
  cases store <;> simp [object?, newFunction, count, map_getElem?_push]

theorem puts_newMethod (f : MethodObject) :
    Puts ⟨.methods, m.count .methods⟩ (some (.method f)) m (m.newMethod f).2 := by
  refine ⟨?_, rfl, rfl, rfl, rfl, rfl⟩
  rintro ⟨store, id⟩
  cases store <;> simp [object?, newMethod, count, map_getElem?_push]

theorem puts_newNative (f : NativeObject) :
    Puts ⟨.natives, m.count .natives⟩ (some (.native f)) m (m.newNative f).2 := by
  refine ⟨?_, rfl, rfl, rfl, rfl, rfl⟩
  rintro ⟨store, id⟩
  cases store <;> simp [object?, newNative, count, map_getElem?_push]

theorem puts_newClass (c : ClassObject) :
    Puts ⟨.classes, m.count .classes⟩ (some (.class c)) m (m.newClass c).2 := by
  refine ⟨?_, rfl, rfl, rfl, rfl, rfl⟩
  rintro ⟨store, id⟩
  cases store <;> simp [object?, newClass, count, map_getElem?_push]

theorem puts_newInstance (classId : ClassId) :
    Puts ⟨.instances, m.count .instances⟩ (some (.instance ⟨classId, []⟩)) m
      (m.newInstance classId).2 := by
  refine ⟨?_, rfl, rfl, rfl, rfl, rfl⟩
  rintro ⟨store, id⟩
  cases store <;> simp [object?, newInstance, count, map_getElem?_push]

theorem puts_create (scope : Scope) :
    Puts ⟨.scopes, m.count .scopes⟩ (some (.scope scope)) m
      { m with scopes := (m.scopes.create scope).1 } := by
  refine ⟨?_, rfl, rfl, rfl, rfl, rfl⟩
  rintro ⟨store, id⟩
  cases store <;> simp [object?, Scopes.create, count, map_getElem?_push]

end Create

section Change

theorem puts_define (id : ScopeId) (b : Binding) :
    Puts ⟨.scopes, id⟩
      ((m.object? ⟨.scopes, id⟩).map fun _ => .scope ((m.scopes.get id).define b)) m
      (m.define id b) := by
  refine ⟨?_, rfl, rfl, rfl, rfl, rfl⟩
  rintro ⟨store, j⟩
  cases store with
  | scopes =>
      by_cases hj : j = id
      · subst hj
        cases hget : m.scopes.all[j]? <;>
          simp [object?, define, Scopes.define, Scopes.get, Array.getElem?_modify, hget]
      · simp [object?, define, Scopes.define, Array.getElem?_modify, hj, Ne.symm hj]
  | functions | methods | natives | classes | instances | lists | maps => simp [object?, define]

theorem puts_setList (id : ListId) (elements : Sequence) :
    Puts ⟨.lists, id⟩ ((m.object? ⟨.lists, id⟩).map fun _ => .list elements) m
      (m.setList id elements) := by
  refine ⟨?_, rfl, rfl, rfl, rfl, rfl⟩
  rintro ⟨store, j⟩
  cases store with
  | lists =>
      by_cases hj : j = id
      · subst hj
        by_cases hsize : j < m.lists.size <;> simp [object?, setList, hsize]
      · simp [object?, setList, hj, Ne.symm hj]
  | scopes | functions | methods | natives | classes | instances | maps => simp [object?, setList]

theorem puts_setMap (id : MapId) (entries : Dictionary) :
    Puts ⟨.maps, id⟩ ((m.object? ⟨.maps, id⟩).map fun _ => .map entries) m
      (m.setMap id entries) := by
  refine ⟨?_, rfl, rfl, rfl, rfl, rfl⟩
  rintro ⟨store, j⟩
  cases store with
  | maps =>
      by_cases hj : j = id
      · subst hj
        by_cases hsize : j < m.maps.size <;> simp [object?, setMap, hsize]
      · simp [object?, setMap, hj, Ne.symm hj]
  | scopes | functions | methods | natives | classes | instances | lists => simp [object?, setMap]

theorem puts_setField (id : InstanceId) (name : String) (v : Value) :
    Puts ⟨.instances, id⟩
      (m.instances[id]?.map fun i =>
        .instance { i with fields := Eval.putNamed name v i.fields }) m
      { m with
        instances := m.instances.modify id fun i =>
          { i with fields := Eval.putNamed name v i.fields } } := by
  refine ⟨?_, rfl, rfl, rfl, rfl, rfl⟩
  rintro ⟨store, j⟩
  cases store with
  | instances =>
      by_cases hj : j = id
      · subst hj
        cases hget : m.instances[j]? <;> simp [object?, Array.getElem?_modify, hget]
      · simp [object?, Array.getElem?_modify, hj, Ne.symm hj]
  | scopes | functions | methods | natives | classes | lists | maps => simp [object?]

end Change

end Machine

end Lox
