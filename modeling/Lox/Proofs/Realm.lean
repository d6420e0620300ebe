import Lox.Display
import Lox.Proofs.Heap
import Lox.Proofs.Scopes

/-!
# Realms

A `Realm` is a set of references, the live ones, that contains all references not in use at the
start. Two machines are alike in the realm if they agree about the live objects, which refer to
live objects only, while all other objects are as they were at the start on either machine. What
is computed from live objects is the same on both.
-/

namespace Lox

/-- The machines at the start, and the references that may be followed. -/
structure Realm where
  live : Ref → Prop
  first : Machine
  second : Machine
  fresh : ∀ r, first.object? r = none → live r

namespace Realm

variable (R : Realm)

/-- Every object that the value refers to is live. -/
def Sees (v : Value) : Prop :=
  ∀ r ∈ v.refs, R.live r

/-- The machines agree about what is live and have left everything else alone. -/
structure Alike (m m' : Machine) : Prop where
  frames : m.frames = m'.frames
  output : m.output = m'.output
  clock : ∀ k, m.clock (m.readings + k) = m'.clock (m'.readings + k)
  uses : ∀ r, (m.object? r).isSome = (m'.object? r).isSome
  grown : ∀ r, (R.first.object? r).isSome = true → (m.object? r).isSome = true
  agree : ∀ r, R.live r → m.object? r = m'.object? r
  closed : ∀ r o, R.live r → m.object? r = some o → ∀ t ∈ o.refs, R.live t
  untouched : ∀ r, ¬R.live r → m.object? r = R.first.object? r
  untouched' : ∀ r, ¬R.live r → m'.object? r = R.second.object? r

variable {R}

theorem sees_of_isPlain {v : Value} (h : v.isPlain = true) : R.Sees v := by
  intro r hr
  rw [Value.refs_of_isPlain h] at hr
  cases hr

section Kinds

@[simp] theorem sees_function {id : FunctionId} :
    R.Sees (.function id) ↔ R.live ⟨.functions, id⟩ := by
  simp [Sees, Value.refs]

@[simp] theorem sees_native {id : NativeId} : R.Sees (.native id) ↔ R.live ⟨.natives, id⟩ := by
  simp [Sees, Value.refs]

@[simp] theorem sees_class {id : ClassId} : R.Sees (.class id) ↔ R.live ⟨.classes, id⟩ := by
  simp [Sees, Value.refs]

@[simp] theorem sees_instance {id : InstanceId} :
    R.Sees (.instance id) ↔ R.live ⟨.instances, id⟩ := by
  simp [Sees, Value.refs]

@[simp] theorem sees_list {id : ListId} : R.Sees (.list id) ↔ R.live ⟨.lists, id⟩ := by
  simp [Sees, Value.refs]

@[simp] theorem sees_map {id : MapId} : R.Sees (.map id) ↔ R.live ⟨.maps, id⟩ := by
  simp [Sees, Value.refs]

end Kinds

namespace Alike

variable {m m' n n' : Machine}

/-- What is not in use is live. -/
theorem live_of_none (h : R.Alike m m') {r : Ref} (hr : m.object? r = none) : R.live r := by
  refine R.fresh r ?_
  cases hfirst : R.first.object? r with
  | none => rfl
  | some o =>
      have hgrown := h.grown r (by simp [hfirst])
      simp [hr] at hgrown

theorem live_count (h : R.Alike m m') (store : Store) : R.live ⟨store, m.count store⟩ :=
  h.live_of_none (m.object?_count store)

theorem count_eq (h : R.Alike m m') (store : Store) : m.count store = m'.count store :=
  Machine.count_eq h.uses store

/-- The same change to a live object. -/
theorem puts
    {r : Ref} {x : Option Object}
    (h : R.Alike m m')
    (hn : Machine.Puts r x m n)
    (hn' : Machine.Puts r x m' n')
    (hr : R.live r)
    (hx : (m.object? r).isSome = true → x.isSome = true)
    (hrefs : ∀ o ∈ x, ∀ t ∈ o.refs, R.live t) :
    R.Alike n n' where
  frames := by rw [hn.frames, hn'.frames, h.frames]
  output := by rw [hn.output, hn'.output, h.output]
  clock k := by rw [hn.clock, hn'.clock, hn.readings, hn'.readings, h.clock]
  uses t := by
    rw [hn.object, hn'.object]
    split
    · rfl
    · exact h.uses t
  grown t ht := by
    rw [hn.object]
    split
    · next heq => exact hx (heq ▸ h.grown t ht)
    · exact h.grown t ht
  agree t ht := by
    rw [hn.object, hn'.object]
    split
    · rfl
    · exact h.agree t ht
  closed t o ht ho := by
    rw [hn.object] at ho
    split at ho
    · exact hrefs o ho
    · exact h.closed t o ht ho
  untouched t ht := by
    have hne : t ≠ r := fun heq => ht (heq ▸ hr)
    rw [hn.object, if_neg hne, h.untouched t ht]
  untouched' t ht := by
    have hne : t ≠ r := fun heq => ht (heq ▸ hr)
    rw [hn'.object, if_neg hne, h.untouched' t ht]

/-- A new object. -/
theorem puts_new
    {store : Store} {o : Object}
    (h : R.Alike m m')
    (hn : Machine.Puts ⟨store, m.count store⟩ (some o) m n)
    (hn' : Machine.Puts ⟨store, m'.count store⟩ (some o) m' n')
    (hrefs : ∀ t ∈ o.refs, R.live t) :
    R.Alike n n' := by
  rw [← h.count_eq store] at hn'
  exact h.puts hn hn' (h.live_count store) (fun _ => rfl) (by simpa using hrefs)

/-- New contents for an object, provided it is in use. -/
theorem puts_map
    {r : Ref} {o : Object}
    (h : R.Alike m m')
    (hn : Machine.Puts r ((m.object? r).map fun _ => o) m n)
    (hn' : Machine.Puts r ((m'.object? r).map fun _ => o) m' n')
    (hr : R.live r)
    (hrefs : ∀ t ∈ o.refs, R.live t) :
    R.Alike n n' := by
  rw [← h.agree r hr] at hn'
  refine h.puts hn hn' hr (by simp) fun o' ho' => ?_
  obtain ⟨_, _, rfl⟩ := Option.map_eq_some_iff.mp ho'
  exact hrefs

/-- A change to nothing that is compared. -/
theorem of_eq
    (h : R.Alike m m')
    (hobject : ∀ r, n.object? r = m.object? r)
    (hobject' : ∀ r, n'.object? r = m'.object? r)
    (hframes : n.frames = n'.frames)
    (houtput : n.output = n'.output)
    (hclock : ∀ k, n.clock (n.readings + k) = n'.clock (n'.readings + k)) :
    R.Alike n n' where
  frames := hframes
  output := houtput
  clock := hclock
  uses r := by rw [hobject, hobject', h.uses]
  grown r hr := by rw [hobject, h.grown r hr]
  agree r hr := by rw [hobject, hobject', h.agree r hr]
  closed r o hr ho := h.closed r o hr (by rwa [hobject] at ho)
  untouched r hr := by rw [hobject, h.untouched r hr]
  untouched' r hr := by rw [hobject', h.untouched' r hr]

section Read

variable (h : R.Alike m m')
include h

theorem scope?_eq {id : ScopeId} (hid : R.live ⟨.scopes, id⟩) :
    m.scopes.all[id]? = m'.scopes.all[id]? :=
  Option.map_injective (fun _ _ => Object.scope.inj) (h.agree _ hid)

theorem scope_eq {id : ScopeId} (hid : R.live ⟨.scopes, id⟩) :
    m.scopes.get id = m'.scopes.get id := by
  simp only [Scopes.get, h.scope?_eq hid]

theorem function_eq {id : FunctionId} (hid : R.live ⟨.functions, id⟩) :
    m.functions[id]? = m'.functions[id]? :=
  Option.map_injective (fun _ _ => Object.function.inj) (h.agree _ hid)

theorem method_eq {id : MethodId} (hid : R.live ⟨.methods, id⟩) :
    m.methods[id]? = m'.methods[id]? :=
  Option.map_injective (fun _ _ => Object.method.inj) (h.agree _ hid)

theorem native_eq {id : NativeId} (hid : R.live ⟨.natives, id⟩) :
    m.natives[id]? = m'.natives[id]? :=
  Option.map_injective (fun _ _ => Object.native.inj) (h.agree _ hid)

theorem class_eq {id : ClassId} (hid : R.live ⟨.classes, id⟩) :
    m.classes[id]? = m'.classes[id]? :=
  Option.map_injective (fun _ _ => Object.class.inj) (h.agree _ hid)

theorem instance_eq {id : InstanceId} (hid : R.live ⟨.instances, id⟩) :
    m.instances[id]? = m'.instances[id]? :=
  Option.map_injective (fun _ _ => Object.instance.inj) (h.agree _ hid)

theorem list_eq {id : ListId} (hid : R.live ⟨.lists, id⟩) : m.list id = m'.list id := by
  have hlists : m.lists[id]? = m'.lists[id]? :=
    Option.map_injective (fun _ _ => Object.list.inj) (h.agree _ hid)
  simp only [Machine.list, hlists]

theorem map_eq {id : MapId} (hid : R.live ⟨.maps, id⟩) : m.map id = m'.map id := by
  have hmaps : m.maps[id]? = m'.maps[id]? :=
    Option.map_injective (fun _ _ => Object.map.inj) (h.agree _ hid)
  simp only [Machine.map, hmaps]

theorem live_parent
    {id parent : ScopeId}
    (hid : R.live ⟨.scopes, id⟩)
    (hparent : (m.scopes.get id).parent = some parent) :
    R.live ⟨.scopes, parent⟩ := by
  cases hscope : m.scopes.all[id]? with
  | none => simp [Scopes.get, hscope] at hparent
  | some scope =>
      have hparent : scope.parent = some parent := by simpa [Scopes.get, hscope] using hparent
      refine h.closed ⟨.scopes, id⟩ (.scope scope) hid (by simp [Machine.object?, hscope]) _ ?_
      simp [Object.refs, hparent]

theorem sees_binding
    {id : ScopeId} {b : Binding}
    (hid : R.live ⟨.scopes, id⟩)
    (hb : b ∈ (m.scopes.get id).bindings) :
    R.Sees b.value := by
  cases hscope : m.scopes.all[id]? with
  | none => simp [Scopes.get, hscope] at hb
  | some scope =>
      have hb : b ∈ scope.bindings := by simpa [Scopes.get, hscope] using hb
      intro r hr
      refine h.closed ⟨.scopes, id⟩ (.scope scope) hid (by simp [Machine.object?, hscope]) r ?_
      exact List.mem_append_right _ (List.mem_flatMap.mpr ⟨b, hb, hr⟩)

theorem live_function
    {id : FunctionId} {f : FunctionObject} {r : Ref}
    (hid : R.live ⟨.functions, id⟩)
    (hf : m.functions[id]? = some f)
    (hr : r ∈ (Object.function f).refs) :
    R.live r :=
  h.closed ⟨.functions, id⟩ (.function f) hid (by simp [Machine.object?, hf]) r hr

theorem live_method
    {id : MethodId} {f : MethodObject} {r : Ref}
    (hid : R.live ⟨.methods, id⟩)
    (hf : m.methods[id]? = some f)
    (hr : r ∈ (Object.method f).refs) :
    R.live r :=
  h.closed ⟨.methods, id⟩ (.method f) hid (by simp [Machine.object?, hf]) r hr

theorem live_native
    {id : NativeId} {f : NativeObject} {r : Ref}
    (hid : R.live ⟨.natives, id⟩)
    (hf : m.natives[id]? = some f)
    (hr : r ∈ (Object.native f).refs) :
    R.live r :=
  h.closed ⟨.natives, id⟩ (.native f) hid (by simp [Machine.object?, hf]) r hr

theorem live_class
    {id : ClassId} {c : ClassObject} {r : Ref}
    (hid : R.live ⟨.classes, id⟩)
    (hc : m.classes[id]? = some c)
    (hr : r ∈ (Object.class c).refs) :
    R.live r :=
  h.closed ⟨.classes, id⟩ (.class c) hid (by simp [Machine.object?, hc]) r hr

theorem live_instance
    {id : InstanceId} {i : InstanceObject} {r : Ref}
    (hid : R.live ⟨.instances, id⟩)
    (hi : m.instances[id]? = some i)
    (hr : r ∈ (Object.instance i).refs) :
    R.live r :=
  h.closed ⟨.instances, id⟩ (.instance i) hid (by simp [Machine.object?, hi]) r hr

theorem sees_field
    {id : InstanceId} {i : InstanceObject} {name : String} {v : Value}
    (hid : R.live ⟨.instances, id⟩)
    (hi : m.instances[id]? = some i)
    (hv : i.fields.lookup name = some v) :
    R.Sees v := by
  obtain ⟨before, after, hfields, -⟩ := List.lookup_eq_some_iff.mp hv
  refine fun r hr => h.live_instance hid hi (List.mem_cons_of_mem _ ?_)
  exact List.mem_flatMap.mpr ⟨(name, v), by simp [hfields], hr⟩

theorem sees_element
    {id : ListId} {v : Value}
    (hid : R.live ⟨.lists, id⟩)
    (hv : v ∈ m.list id) :
    R.Sees v := by
  cases hlist : m.lists[id]? with
  | none => simp [Machine.list, hlist] at hv
  | some elements =>
      have hv : v ∈ elements := by simpa [Machine.list, hlist] using hv
      intro r hr
      refine h.closed ⟨.lists, id⟩ (.list elements) hid (by simp [Machine.object?, hlist]) r ?_
      exact List.mem_flatMap.mpr ⟨v, by simpa using hv, hr⟩

theorem sees_entry
    {id : MapId} {entry : Key × Value}
    (hid : R.live ⟨.maps, id⟩)
    (hentry : entry ∈ m.map id) :
    R.Sees entry.2 := by
  cases hmap : m.maps[id]? with
  | none => simp [Machine.map, hmap] at hentry
  | some entries =>
      have hentry : entry ∈ entries := by simpa [Machine.map, hmap] using hentry
      intro r hr
      refine h.closed ⟨.maps, id⟩ (.map entries) hid (by simp [Machine.object?, hmap]) r ?_
      exact List.mem_flatMap.mpr ⟨entry, hentry, hr⟩

end Read

section Derived

variable (h : R.Alike m m')
include h

/-- A lookup follows live scopes and finds a live one. -/
theorem lookup?_eq (name : String) :
    ∀ {id : ScopeId}, R.live ⟨.scopes, id⟩ →
      m.scopes.lookup? id name = m'.scopes.lookup? id name ∧
        ∀ owner b, m.scopes.lookup? id name = some (owner, b) →
          R.live ⟨.scopes, owner⟩ ∧ R.Sees b.value := by
  intro id
  induction id using Nat.strongRecOn with
  | ind id ih =>
      intro hid
      rw [Scopes.lookup?, Scopes.lookup?, ← h.scope_eq hid]
      cases hfind : (m.scopes.get id).find? name with
      | some b =>
          refine ⟨rfl, fun owner c hc => ?_⟩
          cases hc
          exact ⟨hid, h.sees_binding hid (List.mem_of_find?_eq_some hfind)⟩
      | none =>
          cases hparent : (m.scopes.get id).parent with
          | none => simp
          | some parent =>
              by_cases hlt : parent < id
              · simpa [hlt] using ih parent hlt (h.live_parent hid hparent)
              · simp [hlt]

/-- The way outward leads through live scopes. -/
theorem chain_eq (stop : Option ScopeId) :
    ∀ {id : ScopeId}, R.live ⟨.scopes, id⟩ →
      m.scopes.chain id stop = m'.scopes.chain id stop ∧
        ∀ scope ∈ m.scopes.chain id stop, R.live ⟨.scopes, scope⟩ := by
  intro id
  induction id using Nat.strongRecOn with
  | ind id ih =>
      intro hid
      rw [Scopes.chain, Scopes.chain, ← h.scope_eq hid]
      by_cases hstop : some id = stop
      · simp [hstop]
      · cases hparent : (m.scopes.get id).parent with
        | none => simpa [hstop] using hid
        | some parent =>
            by_cases hlt : parent < id
            · obtain ⟨heq, hlive⟩ := ih parent hlt (h.live_parent hid hparent)
              simpa [hstop, hlt, heq, hid] using fun s hs => hlive s (heq ▸ hs)
            · simpa [hstop, hlt] using hid

theorem className_eq {id : ClassId} (hid : R.live ⟨.classes, id⟩) :
    m.className id = m'.className id := by
  simp only [Machine.className, h.class_eq hid]

/-- A method is found in a live class and is live. -/
theorem findMethod?_eq (name : String) :
    ∀ {id : ClassId}, R.live ⟨.classes, id⟩ →
      m.findMethod? id name = m'.findMethod? id name ∧
        ∀ method ∈ m.findMethod? id name, R.live ⟨.methods, method⟩ := by
  intro id
  induction id using Nat.strongRecOn with
  | ind id ih =>
      intro hid
      rw [Machine.findMethod?, Machine.findMethod?, ← h.class_eq hid]
      cases hc : m.classes[id]? with
      | none => simp
      | some c =>
          cases hmethod : c.methods.lookup name with
          | some method =>
              simp only [hmethod]
              refine ⟨trivial, fun found hfound => ?_⟩
              cases hfound
              obtain ⟨before, after, hmethods, -⟩ := List.lookup_eq_some_iff.mp hmethod
              refine h.live_class hid hc (List.mem_append_right _ ?_)
              simp [hmethods]
          | none =>
              cases hparent : c.superclass with
              | none => simp [hmethod, hparent]
              | some parent =>
                  by_cases hlt : parent < id
                  · have hlive : R.live ⟨.classes, parent⟩ :=
                      h.live_class hid hc (List.mem_append_left _ (by simp [hparent]))
                    simpa [hmethod, hparent, hlt] using ih parent hlt hlive
                  · simp [hmethod, hparent, hlt]

theorem methodName_eq {id : MethodId} (hid : R.live ⟨.methods, id⟩) :
    m.methodName id = m'.methodName id := by
  simp only [Machine.methodName, h.method_eq hid]

theorem methodArity_eq {id : MethodId} (hid : R.live ⟨.methods, id⟩) :
    m.methodArity id = m'.methodArity id := by
  simp only [Machine.methodArity, h.method_eq hid]

theorem methodQualifiedName_eq {id : MethodId} (hid : R.live ⟨.methods, id⟩) :
    m.methodQualifiedName id = m'.methodQualifiedName id := by
  simp only [Machine.methodQualifiedName, ← h.method_eq hid]
  cases hf : m.methods[id]? with
  | none => rfl
  | some f =>
      have howner : R.live ⟨.classes, f.owner⟩ := h.live_method hid hf (by simp [Object.refs])
      simp only [h.className_eq howner]

theorem live_bound
    {id : FunctionId} {receiver : InstanceId} {method : MethodId}
    (hid : R.live ⟨.functions, id⟩)
    (hf : m.functions[id]? = some (.bound receiver method)) :
    R.live ⟨.instances, receiver⟩ ∧ R.live ⟨.methods, method⟩ :=
  ⟨h.live_function hid hf (by simp [Object.refs]), h.live_function hid hf (by simp [Object.refs])⟩

theorem functionName_eq {id : FunctionId} (hid : R.live ⟨.functions, id⟩) :
    m.functionName id = m'.functionName id := by
  simp only [Machine.functionName, ← h.function_eq hid]
  cases hf : m.functions[id]? with
  | none => rfl
  | some f =>
      cases f with
      | closure name params body scope => rfl
      | bound receiver method => exact h.methodName_eq (h.live_bound hid hf).2

theorem functionQualifiedName_eq {id : FunctionId} (hid : R.live ⟨.functions, id⟩) :
    m.functionQualifiedName id = m'.functionQualifiedName id := by
  simp only [Machine.functionQualifiedName, ← h.function_eq hid]
  cases hf : m.functions[id]? with
  | none => rfl
  | some f =>
      cases f with
      | closure name params body scope => rfl
      | bound receiver method => exact h.methodQualifiedName_eq (h.live_bound hid hf).2

theorem functionArity_eq {id : FunctionId} (hid : R.live ⟨.functions, id⟩) :
    m.functionArity id = m'.functionArity id := by
  simp only [Machine.functionArity, ← h.function_eq hid]
  cases hf : m.functions[id]? with
  | none => rfl
  | some f =>
      cases f with
      | closure name params body scope => rfl
      | bound receiver method => exact h.methodArity_eq (h.live_bound hid hf).2

theorem instanceClassName_eq {id : InstanceId} (hid : R.live ⟨.instances, id⟩) :
    m.instanceClassName id = m'.instanceClassName id := by
  simp only [Machine.instanceClassName, ← h.instance_eq hid]
  cases hi : m.instances[id]? with
  | none => rfl
  | some i => exact h.className_eq (h.live_instance hid hi (by simp [Object.refs]))

theorem instanceMethod?_eq (name : String) {id : InstanceId} (hid : R.live ⟨.instances, id⟩) :
    m.instanceMethod? id name = m'.instanceMethod? id name ∧
      ∀ method ∈ m.instanceMethod? id name, R.live ⟨.methods, method⟩ := by
  simp only [Machine.instanceMethod?, ← h.instance_eq hid]
  cases hi : m.instances[id]? with
  | none => simp
  | some i => exact h.findMethod?_eq name (h.live_instance hid hi (by simp [Object.refs]))

/-- The text of a value that refers to live objects. -/
theorem textWithin_eq (depth : Nat) (open_ : List Value) (v : Value) (hv : R.Sees v) :
    m.textWithin depth open_ v = m'.textWithin depth open_ v := by
  induction depth generalizing open_ v with
  | zero => rfl
  | succ depth ih =>
      replace ih := ih (v :: open_)
      cases v with
      | nil | boolean b | number x | string s => rfl
      | function id =>
          have hid : R.live ⟨.functions, id⟩ := sees_function.mp hv
          simp only [Machine.textWithin, h.functionName_eq hid]
      | native id =>
          have hid : R.live ⟨.natives, id⟩ := sees_native.mp hv
          simp only [Machine.textWithin, h.native_eq hid]
      | «class» id =>
          have hid : R.live ⟨.classes, id⟩ := sees_class.mp hv
          simp only [Machine.textWithin, h.className_eq hid]
      | «instance» id =>
          have hid : R.live ⟨.instances, id⟩ := sees_instance.mp hv
          simp only [Machine.textWithin, h.instanceClassName_eq hid]
      | list id =>
          have hid : R.live ⟨.lists, id⟩ := sees_list.mp hv
          have hparts : (m.list id).toList.map (m.textWithin depth (.list id :: open_)) =
              (m.list id).toList.map (m'.textWithin depth (.list id :: open_)) :=
            List.map_congr_left fun e he => ih e (h.sees_element hid (by simpa using he))
          simp only [Machine.textWithin, hparts, ← h.list_eq hid]
      | map id =>
          have hid : R.live ⟨.maps, id⟩ := sees_map.mp hv
          have hkey (key : Key) : R.Sees key.toValue :=
            sees_of_isPlain (by cases key <;> rfl)
          have hparts :
              (m.map id).map (fun entry => m.textWithin depth (.map id :: open_) entry.1.toValue ++
                ": " ++ m.textWithin depth (.map id :: open_) entry.2) =
              (m.map id).map (fun entry => m'.textWithin depth (.map id :: open_) entry.1.toValue ++
                ": " ++ m'.textWithin depth (.map id :: open_) entry.2) :=
            List.map_congr_left fun entry hentry => by
              rw [ih _ (hkey entry.1), ih _ (h.sees_entry hid hentry)]
          simp only [Machine.textWithin, hparts, ← h.map_eq hid]

theorem text_eq {v : Value} (hv : R.Sees v) : m.text v = m'.text v := by
  have hcontainers : m.containers = m'.containers := by
    have hlists := h.count_eq .lists
    have hmaps := h.count_eq .maps
    simp only [Machine.count] at hlists hmaps
    simp only [Machine.containers, hlists, hmaps]
  rw [Machine.text, Machine.text, hcontainers, h.textWithin_eq _ _ v hv]

end Derived

end Alike

end Realm

end Lox
