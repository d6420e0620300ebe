import Lox.Proofs.Collection
import Lox.Proofs.Entering
import Lox.Proofs.Heap

/-!
# Classes are older than what refers to them

A value that is a class has the number of a class that exists. So a class that is declared with a
superclass gets a greater number than its superclass. `Machine.Knows` says this of a machine
together with the values that are in flight: computed, but stored nowhere yet.
-/

namespace Lox

/-- If the value is a class, its number is below the count. -/
@[simp] def Value.Known (count : Nat) : Value → Prop
  | .class id => id < count
  | _ => True

/-- The values in an object. -/
def Object.values : Object → List Value
  | scope s => s.bindings.map (·.value)
  | «instance» i => i.fields.map (·.2)
  | list elements => elements.toList
  | map entries => entries.map (·.2)
  | function _ | method _ | native _ | «class» _ => []

/-- All classes among the values that are stored or in flight exist, and all superclasses are older
than their subclasses. -/
structure Machine.Knows (m : Machine) (inFlight : List Value) : Prop where
  stored : ∀ r o, m.object? r = some o → ∀ v ∈ o.values, v.Known m.classes.size
  inFlight : ∀ v ∈ inFlight, v.Known m.classes.size
  older : ∀ (id : ClassId) (c : ClassObject) (parent : ClassId), m.classes[id]? = some c →
    c.superclass = some parent → parent < id

namespace Value

theorem known_of_isPlain {v : Value} (h : v.isPlain = true) (count : Nat) : v.Known count := by
  cases v with
  | «class» id => cases h
  | nil | boolean | number | string | function | native | «instance» | list | map => trivial

theorem Known.mono {v : Value} {count count' : Nat} (h : v.Known count) (hle : count ≤ count') :
    v.Known count' := by
  cases v with
  | «class» id => exact Nat.lt_of_lt_of_le h hle
  | nil | boolean | number | string | function | native | «instance» | list | map => trivial

end Value

namespace Machine.Knows

variable {m n : Machine} {held held' : List Value}

theorem mono (h : m.Knows held) (hsub : ∀ v ∈ held', v.Known m.classes.size) : m.Knows held' :=
  ⟨h.stored, hsub, h.older⟩

theorem append
    (h : m.Knows held)
    (hvs : ∀ v ∈ held', v.Known m.classes.size) :
    m.Knows (held' ++ held) :=
  h.mono fun v hv => (List.mem_append.mp hv).elim (hvs v) (h.inFlight v)

/-- A change of one object that is no class. -/
theorem puts
    {r : Ref} {x : Option Object}
    (h : m.Knows held)
    (hn : Machine.Puts r x m n)
    (hclasses : n.classes = m.classes)
    (hx : ∀ o ∈ x, ∀ v ∈ o.values, v.Known m.classes.size) :
    n.Knows held where
  stored t o ht v hv := by
    rw [hclasses]
    rw [hn.object] at ht
    split at ht
    · exact hx o ht v hv
    · exact h.stored t o ht v hv
  inFlight v hv := hclasses ▸ h.inFlight v hv
  older id c parent hc := h.older id c parent (hclasses ▸ hc)

/-- A change to nothing that is stored in objects. -/
theorem of_eq
    (h : m.Knows held)
    (hobject : ∀ r, n.object? r = m.object? r)
    (hclasses : n.classes = m.classes) :
    n.Knows held where
  stored r o ho v hv := hclasses ▸ h.stored r o (hobject r ▸ ho) v hv
  inFlight v hv := hclasses ▸ h.inFlight v hv
  older id c parent hc := h.older id c parent (hclasses ▸ hc)

section Read

variable (h : m.Knows held)
include h

theorem binding {id : ScopeId} {b : Binding} (hb : b ∈ (m.scopes.get id).bindings) :
    b.value.Known m.classes.size := by
  cases hscope : m.scopes.all[id]? with
  | none => simp [Scopes.get, hscope] at hb
  | some scope =>
      have hb : b ∈ scope.bindings := by simpa [Scopes.get, hscope] using hb
      exact h.stored ⟨.scopes, id⟩ (.scope scope) (by simp [object?, hscope]) _
        (List.mem_map_of_mem hb)

theorem field
    {id : InstanceId} {i : InstanceObject} {entry : String × Value}
    (hi : m.instances[id]? = some i)
    (hentry : entry ∈ i.fields) :
    entry.2.Known m.classes.size :=
  h.stored ⟨.instances, id⟩ (.instance i) (by simp [object?, hi]) _ (List.mem_map_of_mem hentry)

theorem element {id : ListId} {v : Value} (hv : v ∈ m.list id) : v.Known m.classes.size := by
  cases hlist : m.lists[id]? with
  | none => simp [list, hlist] at hv
  | some elements =>
      have hv : v ∈ elements := by simpa [list, hlist] using hv
      exact h.stored ⟨.lists, id⟩ (.list elements) (by simp [object?, hlist]) v
        (Array.mem_toList_iff.mpr hv)

theorem entry {id : MapId} {entry : Key × Value} (hentry : entry ∈ m.map id) :
    entry.2.Known m.classes.size := by
  cases hmap : m.maps[id]? with
  | none => simp [map, hmap] at hentry
  | some entries =>
      have hentry : entry ∈ entries := by simpa [map, hmap] using hentry
      exact h.stored ⟨.maps, id⟩ (.map entries) (by simp [object?, hmap]) _
        (List.mem_map_of_mem hentry)

theorem lookup
    {scope owner : ScopeId} {name : String} {b : Binding}
    (hlookup : m.scopes.lookup? scope name = some (owner, b)) :
    b.value.Known m.classes.size :=
  h.binding (List.mem_of_find?_eq_some (Scopes.find?_of_lookup? hlookup))

end Read

section Write

variable (h : m.Knows held)
include h

theorem createScope
    {scope : Scope}
    (hscope : ∀ b ∈ scope.bindings, b.value.Known m.classes.size) :
    Machine.Knows { m with scopes := (m.scopes.create scope).1 } held := by
  refine h.puts (m.puts_create scope) rfl fun o ho v hv => ?_
  cases ho
  obtain ⟨b, hb, rfl⟩ := List.mem_map.mp hv
  exact hscope b hb

theorem enter
    (parent : ScopeId)
    {bindings : List Binding}
    (hbindings : ∀ b ∈ bindings, b.value ∈ held) :
    (m.enter parent bindings).Knows held := by
  rw [Machine.enter_eq]
  have hscope : ∀ b ∈ Scope.bound bindings, b.value.Known m.classes.size :=
    fun b hb => h.inFlight _ (hbindings b (Scope.mem_bound hb))
  exact (h.createScope hscope : Machine.Knows _ held).of_eq (fun _ => rfl) rfl

theorem define (id : ScopeId) {b : Binding} (hb : b.value.Known m.classes.size) :
    (m.define id b).Knows held := by
  refine h.puts (m.puts_define id b) rfl fun o ho v hv => ?_
  obtain ⟨-, -, rfl⟩ := Option.map_eq_some_iff.mp ho
  obtain ⟨c, hc, rfl⟩ := List.mem_map.mp hv
  rcases Scope.mem_place hc with rfl | hc
  · exact hb
  · exact h.binding hc

theorem setList
    (id : ListId)
    {elements : Sequence}
    (helements : ∀ v ∈ elements, v.Known m.classes.size) :
    (m.setList id elements).Knows held := by
  refine h.puts (m.puts_setList id elements) rfl fun o ho v hv => ?_
  obtain ⟨-, -, rfl⟩ := Option.map_eq_some_iff.mp ho
  exact helements v (Array.mem_toList_iff.mp hv)

theorem setMap
    (id : MapId)
    {entries : Dictionary}
    (hentries : ∀ entry ∈ entries, entry.2.Known m.classes.size) :
    (m.setMap id entries).Knows held := by
  refine h.puts (m.puts_setMap id entries) rfl fun o ho v hv => ?_
  obtain ⟨-, -, rfl⟩ := Option.map_eq_some_iff.mp ho
  obtain ⟨entry, hentry, rfl⟩ := List.mem_map.mp hv
  exact hentries entry hentry

/-- A new class is younger than its superclass. -/
theorem newClass
    {c : ClassObject}
    (hparent : ∀ parent ∈ c.superclass, parent < m.classes.size) :
    (m.newClass c).2.Knows (.class (m.newClass c).1 :: held) where
  stored r o ho v hv := by
    have hsize : m.classes.size ≤ (m.newClass c).2.classes.size := by simp [Machine.newClass]
    rw [(m.puts_newClass c).object] at ho
    split at ho
    · cases ho
      cases hv
    · exact (h.stored r o ho v hv).mono hsize
  inFlight v hv := by
    have hsize : (m.newClass c).2.classes.size = m.classes.size + 1 := by simp [Machine.newClass]
    rw [hsize]
    rcases List.mem_cons.mp hv with rfl | hv
    · exact Nat.lt_succ_self _
    · exact (h.inFlight v hv).mono (Nat.le_succ _)
  older id d parent hd hdparent := by
    simp only [Machine.newClass, Array.getElem?_push] at hd
    split at hd
    · next hid =>
        cases hd
        exact hid ▸ hparent parent hdparent
    · exact h.older id d parent hd hdparent

end Write

end Machine.Knows

theorem Machine.knows_initial (clock : Nat → Float) : (Machine.initial clock).Knows [] where
  stored := by
    rintro ⟨store, id⟩ o ho v hv
    cases store with
    | scopes =>
        obtain ⟨scope, hscope, rfl⟩ := Option.map_eq_some_iff.mp ho
        obtain ⟨b, hb, rfl⟩ := List.mem_map.mp hv
        rcases id with _ | _ | id
        · simp [initial] at hscope
          subst hscope
          simp [Builtin.all] at hb
          rcases hb with rfl | rfl | rfl | rfl <;> trivial
        · simp [initial] at hscope
          subst hscope
          simp at hb
        · simp [initial] at hscope
    | natives =>
        obtain ⟨f, -, rfl⟩ := Option.map_eq_some_iff.mp ho
        cases hv
    | functions | methods | classes | instances | lists | maps => simp [object?, initial] at ho
  inFlight := by simp
  older := by simp [initial]

end Lox
