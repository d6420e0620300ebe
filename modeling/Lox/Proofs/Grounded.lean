import Lox.Proofs.Checked
import Lox.Proofs.Classes.Declaration

/-!
# References that lead to objects

Objects are numbered when they are made and never removed, so a reference that leads to an object once
does so for good. A machine is grounded if all references that it stores lead to objects, and so do
those that are held: read from the machine or made on it, but perhaps stored nowhere yet.
-/

namespace Lox

namespace Machine

/-- Everything that the value refers to is there. -/
def Sees (m : Machine) (v : Value) : Prop :=
  ∀ t ∈ v.refs, m.uses t = true

/-- All references that are stored or held lead to objects. -/
structure Grounded (m : Machine) (held : List Ref) : Prop where
  stored : ∀ r o, m.object? r = some o → ∀ t ∈ o.refs, m.uses t = true
  current : m.uses ⟨.scopes, m.current⟩ = true
  lastValue : m.Sees m.lastValue
  held : ∀ t ∈ held, m.uses t = true

theorem sees_of_isPlain (m : Machine) {v : Value} (h : v.isPlain = true) : m.Sees v := by
  intro t ht
  rw [Value.refs_of_isPlain h] at ht
  cases ht

section Present

variable {m : Machine} {id : Nat}

theorem exists_function (h : m.uses ⟨.functions, id⟩ = true) : ∃ f, m.functions[id]? = some f := by
  simpa [uses, object?, Option.isSome_iff_exists] using h

theorem exists_method (h : m.uses ⟨.methods, id⟩ = true) : ∃ f, m.methods[id]? = some f := by
  simpa [uses, object?, Option.isSome_iff_exists] using h

theorem exists_native (h : m.uses ⟨.natives, id⟩ = true) : ∃ f, m.natives[id]? = some f := by
  simpa [uses, object?, Option.isSome_iff_exists] using h

end Present

section Declaration

variable {m : Machine} {name : String} {parent : Option ClassId} {ds : List FunctionDecl}
variable {table : List (String × MethodId)}

theorem uses_newClass :
    (m.withClass name parent ds table).uses ⟨.classes, m.classes.size⟩ = true :=
  ((m.withClass name parent ds table).isSome_object? .classes m.classes.size).mpr
    (by simp [withClass, count])

/-- What is there where a class is declared is there afterwards. -/
theorem uses_withClass
    {t : Ref}
    (ht : uses { m with scopes := (m.scopesForClass name parent).1 } t = true) :
    (m.withClass name parent ds table).uses t = true := by
  obtain ⟨store, id⟩ := t
  have hlt := (isSome_object? _ store id).mp ht
  refine (isSome_object? _ store id).mpr (Nat.lt_of_lt_of_le hlt ?_)
  cases store <;> simp [withClass, count]

theorem method_withClass
    {id : MethodId} {f : MethodObject}
    (hf : (m.withClass name parent ds table).methods[id]? = some f) :
    m.methods[id]? = some f ∨
      ∃ d : FunctionDecl, d.method m.classes.size (m.scopesForClass name parent).2 = f := by
  rw [withClass, Array.getElem?_append] at hf
  split at hf
  · exact .inl hf
  · obtain ⟨d, -, hd⟩ : ∃ d ∈ ds, d.method m.classes.size (m.scopesForClass name parent).2 = f := by
      simpa using Array.mem_of_getElem? hf
    exact .inr ⟨d, hd⟩

theorem class_withClass
    {id : ClassId} {c : ClassObject}
    (hc : (m.withClass name parent ds table).classes[id]? = some c) :
    m.classes[id]? = some c ∨ ⟨name, parent, table⟩ = c := by
  rw [withClass, Array.getElem?_push] at hc
  split at hc
  · exact .inr (Option.some.inj hc)
  · exact .inl hc

end Declaration

namespace Grounded

variable {m n : Machine} {held held' : List Ref}

theorem mono (h : m.Grounded held) (hsub : ∀ t ∈ held', m.uses t = true) : m.Grounded held' :=
  ⟨h.stored, h.current, h.lastValue, hsub⟩

theorem append
    (h : m.Grounded held)
    (hnew : ∀ t ∈ held', m.uses t = true) :
    m.Grounded (held' ++ held) :=
  h.mono fun t ht => (List.mem_append.mp ht).elim (hnew t) (h.held t)

theorem hold {t : Ref} (h : m.Grounded held) (ht : m.uses t = true) : m.Grounded (t :: held) :=
  h.mono fun u hu => (List.mem_cons.mp hu).elim (fun heq => heq ▸ ht) (h.held u)

theorem forget {t : Ref} (h : m.Grounded (t :: held)) : m.Grounded held :=
  h.mono fun u hu => h.held u (List.mem_cons_of_mem _ hu)

/-- Nothing is removed, and what changes refers to what is there in the end. -/
theorem changed
    (h : m.Grounded held)
    (huses : ∀ t, m.uses t = true → n.uses t = true)
    (hobjects : ∀ r o, n.object? r = some o →
      m.object? r = some o ∨ ∀ t ∈ o.refs, n.uses t = true)
    (hcurrent : n.current = m.current)
    (hlast : n.lastValue = m.lastValue) :
    n.Grounded held where
  stored r o ho t ht := by
    rcases hobjects r o ho with hold | hnew
    · exact huses t (h.stored r o hold t ht)
    · exact hnew t ht
  current := hcurrent ▸ huses _ h.current
  lastValue t ht := huses t (h.lastValue t (hlast ▸ ht))
  held t ht := huses t (h.held t ht)

section Change

variable {r : Ref} {x : Option Object}

theorem uses_of_puts
    (hn : Puts r x m n)
    (hx : m.uses r = true → x.isSome = true)
    {t : Ref}
    (ht : m.uses t = true) :
    n.uses t = true := by
  unfold uses
  rw [hn.object]
  split
  · next heq => exact hx (heq ▸ ht)
  · exact ht

/-- One object changes. -/
theorem puts
    (h : m.Grounded held)
    (hn : Puts r x m n)
    (hlast : n.lastValue = m.lastValue)
    (hx : m.uses r = true → x.isSome = true)
    (hrefs : ∀ o ∈ x, ∀ t ∈ o.refs, m.uses t = true) :
    n.Grounded held := by
  refine h.changed (fun t => uses_of_puts hn hx) (fun t o ho => ?_) hn.current hlast
  rw [hn.object] at ho
  split at ho
  · exact .inr fun u hu => uses_of_puts hn hx (hrefs o ho u hu)
  · exact .inl ho

/-- A new object is made, and the reference to it is held. -/
theorem puts_new
    {store : Store} {o : Object}
    (h : m.Grounded held)
    (hn : Puts ⟨store, m.count store⟩ (some o) m n)
    (hlast : n.lastValue = m.lastValue)
    (hrefs : ∀ t ∈ o.refs, m.uses t = true) :
    n.Grounded (⟨store, m.count store⟩ :: held) := by
  have hn' := h.puts hn hlast (fun _ => rfl) (by simpa using hrefs)
  refine hn'.hold ?_
  rw [uses, hn.object, if_pos rfl]
  rfl

/-- An object gets other contents, if it is there. -/
theorem puts_map
    {o : Object}
    (h : m.Grounded held)
    (hn : Puts r ((m.object? r).map fun _ => o) m n)
    (hlast : n.lastValue = m.lastValue)
    (hrefs : (m.object? r).isSome = true → ∀ t ∈ o.refs, m.uses t = true) :
    n.Grounded held := by
  refine h.puts hn hlast (fun hr => by rwa [Option.isSome_map]) fun o' ho' => ?_
  obtain ⟨old, hold, rfl⟩ := Option.map_eq_some_iff.mp ho'
  exact hrefs (by rw [hold]; rfl)

/-- Nothing changes that refers to anything. -/
theorem of_eq
    (h : m.Grounded held)
    (hobject : ∀ r, n.object? r = m.object? r)
    (hcurrent : n.current = m.current)
    (hlast : n.lastValue = m.lastValue) :
    n.Grounded held := by
  refine h.changed (fun t ht => ?_) (fun r o ho => .inl ?_) hcurrent hlast
  · rwa [uses, hobject]
  · rwa [← hobject]

/-- Another scope becomes current. -/
theorem inScope
    {scope : ScopeId}
    (h : m.Grounded held)
    (hscope : m.uses ⟨.scopes, scope⟩ = true) :
    Grounded { m with current := scope } held :=
  ⟨h.stored, hscope, h.lastValue, h.held⟩

theorem leave
    {previous : ScopeId}
    (h : m.Grounded held)
    (hprevious : ⟨.scopes, previous⟩ ∈ held) :
    (m.leave previous).Grounded held :=
  h.inScope (h.held _ hprevious)

theorem withLastValue
    {v : Value}
    (h : m.Grounded held)
    (hv : m.Sees v) :
    Grounded { m with lastValue := v } held :=
  ⟨h.stored, h.current, hv, h.held⟩

end Change

section Read

variable (h : m.Grounded held)
include h

theorem sees_binding {id : ScopeId} {b : Binding} (hb : b ∈ (m.scopes.get id).bindings) :
    m.Sees b.value := by
  cases hscope : m.scopes.all[id]? with
  | none => simp [Scopes.get, hscope] at hb
  | some scope =>
      have hb : b ∈ scope.bindings := by simpa [Scopes.get, hscope] using hb
      intro t ht
      refine h.stored ⟨.scopes, id⟩ (.scope scope) (by simp [object?, hscope]) t ?_
      exact List.mem_append_right _ (List.mem_flatMap.mpr ⟨b, hb, ht⟩)

theorem uses_parent
    (id : ScopeId)
    {parent : ScopeId}
    (hparent : (m.scopes.get id).parent = some parent) :
    m.uses ⟨.scopes, parent⟩ = true := by
  cases hscope : m.scopes.all[id]? with
  | none => simp [Scopes.get, hscope] at hparent
  | some scope =>
      have hparent : scope.parent = some parent := by simpa [Scopes.get, hscope] using hparent
      refine h.stored ⟨.scopes, id⟩ (.scope scope) (by simp [object?, hscope]) _ ?_
      simp [Object.refs, hparent]

theorem uses_of_function
    {id : FunctionId} {f : FunctionObject}
    (hf : m.functions[id]? = some f) :
    ∀ t ∈ (Object.function f).refs, m.uses t = true :=
  h.stored ⟨.functions, id⟩ (.function f) (by simp [object?, hf])

theorem uses_of_method
    {id : MethodId} {f : MethodObject}
    (hf : m.methods[id]? = some f) :
    ∀ t ∈ (Object.method f).refs, m.uses t = true :=
  h.stored ⟨.methods, id⟩ (.method f) (by simp [object?, hf])

theorem uses_of_native
    {id : NativeId} {f : NativeObject}
    (hf : m.natives[id]? = some f) :
    ∀ t ∈ (Object.native f).refs, m.uses t = true :=
  h.stored ⟨.natives, id⟩ (.native f) (by simp [object?, hf])

theorem uses_of_class
    {id : ClassId} {c : ClassObject}
    (hc : m.classes[id]? = some c) :
    ∀ t ∈ (Object.class c).refs, m.uses t = true :=
  h.stored ⟨.classes, id⟩ (.class c) (by simp [object?, hc])

theorem uses_of_instance
    {id : InstanceId} {i : InstanceObject}
    (hi : m.instances[id]? = some i) :
    ∀ t ∈ (Object.instance i).refs, m.uses t = true :=
  h.stored ⟨.instances, id⟩ (.instance i) (by simp [object?, hi])

theorem sees_field
    {id : InstanceId} {i : InstanceObject} {entry : String × Value}
    (hi : m.instances[id]? = some i)
    (hentry : entry ∈ i.fields) :
    m.Sees entry.2 :=
  fun t ht => h.uses_of_instance hi t
    (List.mem_cons_of_mem _ (List.mem_flatMap.mpr ⟨entry, hentry, ht⟩))

theorem sees_element {id : ListId} {v : Value} (hv : v ∈ m.list id) : m.Sees v := by
  cases hlist : m.lists[id]? with
  | none => simp [list, hlist] at hv
  | some elements =>
      have hv : v ∈ elements := by simpa [list, hlist] using hv
      intro t ht
      refine h.stored ⟨.lists, id⟩ (.list elements) (by simp [object?, hlist]) t ?_
      exact List.mem_flatMap.mpr ⟨v, Array.mem_toList_iff.mpr hv, ht⟩

theorem sees_entry {id : MapId} {entry : Key × Value} (hentry : entry ∈ m.map id) :
    m.Sees entry.2 := by
  cases hmap : m.maps[id]? with
  | none => simp [map, hmap] at hentry
  | some entries =>
      have hentry : entry ∈ entries := by simpa [map, hmap] using hentry
      intro t ht
      refine h.stored ⟨.maps, id⟩ (.map entries) (by simp [object?, hmap]) t ?_
      exact List.mem_flatMap.mpr ⟨entry, hentry, ht⟩

theorem sees_value {scope : ScopeId} {name : String} {v : Value}
    (hv : m.scopes.value scope name = .ok v) :
    m.Sees v := by
  simp only [Scopes.value] at hv
  split at hv
  · next owner b hlookup =>
      cases hv
      exact h.sees_binding (List.mem_of_find?_eq_some (Scopes.find?_of_lookup? hlookup))
  · cases hv

/-- A method that is found is there. -/
theorem uses_of_findMethod? (name : String) :
    ∀ {id : ClassId} {method : MethodId}, m.findMethod? id name = some method →
      m.uses ⟨.methods, method⟩ = true := by
  intro id
  induction id using Nat.strongRecOn with
  | ind id ih =>
      intro method hfound
      rw [findMethod?] at hfound
      cases hc : m.classes[id]? with
      | none => simp [hc] at hfound
      | some c =>
          simp only [hc] at hfound
          split at hfound
          · next own hown =>
              obtain rfl : own = method := Option.some.inj hfound
              obtain ⟨before, after, hmethods, -⟩ := List.lookup_eq_some_iff.mp hown
              refine h.uses_of_class hc _ (List.mem_append_right _ ?_)
              simp [hmethods]
          · split at hfound
            · cases hfound
            · next parent hparent =>
                split at hfound
                · next hlt => exact ih parent hlt hfound
                · cases hfound

end Read

section Write

variable (h : m.Grounded held)
include h

theorem createScope
    {scope : Scope}
    (hscope : ∀ t ∈ (Object.scope scope).refs, m.uses t = true) :
    Grounded { m with scopes := (m.scopes.create scope).1 }
      (⟨.scopes, m.scopes.all.size⟩ :: held) :=
  h.puts_new (m.puts_create scope) rfl hscope

/-- A scope inside one that is there, with bindings whose values are there. -/
theorem createInner
    {parent : ScopeId} {bindings : List Binding}
    (hparent : m.uses ⟨.scopes, parent⟩ = true)
    (hbindings : ∀ b ∈ bindings, m.Sees b.value) :
    Grounded { m with scopes := (m.scopes.create ⟨some parent, bindings⟩).1 }
      (⟨.scopes, m.scopes.all.size⟩ :: held) := by
  refine h.createScope fun t ht => ?_
  rcases List.mem_append.mp ht with ht | ht
  · rw [List.mem_singleton.mp ht]
    exact hparent
  · obtain ⟨b, hb, ht⟩ := List.mem_flatMap.mp ht
    exact hbindings b hb t ht

theorem enter
    {parent : ScopeId} {bindings : List Binding}
    (hparent : m.uses ⟨.scopes, parent⟩ = true)
    (hbindings : ∀ b ∈ bindings, m.Sees b.value) :
    (m.enter parent bindings).Grounded held := by
  rw [Machine.enter_eq]
  have hbound (b : Binding) (hb : b ∈ Scope.bound bindings) : m.Sees b.value :=
    hbindings b (Scope.mem_bound hb)
  have hcreated := h.createInner hparent hbound
  exact (hcreated.inScope (hcreated.held _ List.mem_cons_self)).forget

/-- Where a name is bound, what is stored refers to what was there and to what it is bound to. -/
theorem refs_of_define
    {r : Ref}
    (id : ScopeId)
    (b : Binding)
    {o : Object}
    (ho : (m.define id b).object? r = some o) :
    m.object? r = some o ∨ ∀ t ∈ o.refs, m.uses t = true ∨ t ∈ b.value.refs := by
  rw [(m.puts_define id b).object] at ho
  split at ho
  · obtain ⟨-, -, rfl⟩ := Option.map_eq_some_iff.mp ho
    refine .inr fun t ht => ?_
    rcases List.mem_append.mp ht with ht | ht
    · obtain ⟨parent, hparent, rfl⟩ := List.mem_map.mp ht
      exact .inl (h.uses_parent id (by simpa using hparent))
    · obtain ⟨c, hc, htc⟩ := List.mem_flatMap.mp ht
      rcases Scope.mem_place hc with rfl | hc
      · exact .inr htc
      · exact .inl (h.sees_binding hc t htc)
  · exact .inl ho

omit h in
theorem uses_of_define {t : Ref} {id : ScopeId} {b : Binding} (ht : m.uses t = true) :
    (m.define id b).uses t = true :=
  uses_of_puts (m.puts_define id b) (fun hr => by rwa [Option.isSome_map]) ht

theorem define
    {id : ScopeId} {b : Binding}
    (hb : m.Sees b.value) :
    (m.define id b).Grounded held := by
  refine h.changed (fun _ => uses_of_define) (fun r o ho => ?_) rfl rfl
  refine (h.refs_of_define id b ho).imp_right fun hrefs t ht => uses_of_define ?_
  exact (hrefs t ht).elim (fun huses => huses) (hb t)

theorem setList
    (id : ListId)
    {elements : Sequence}
    (helements : ∀ v ∈ elements, m.Sees v) :
    (m.setList id elements).Grounded held := by
  refine h.puts_map (m.puts_setList id elements) rfl fun _ t ht => ?_
  obtain ⟨v, hv, ht⟩ := List.mem_flatMap.mp ht
  exact helements v (Array.mem_toList_iff.mp hv) t ht

theorem setMap
    (id : MapId)
    {entries : Dictionary}
    (hentries : ∀ entry ∈ entries, m.Sees entry.2) :
    (m.setMap id entries).Grounded held := by
  refine h.puts_map (m.puts_setMap id entries) rfl fun _ t ht => ?_
  obtain ⟨entry, hentry, ht⟩ := List.mem_flatMap.mp ht
  exact hentries entry hentry t ht

theorem setField
    (id : InstanceId)
    (name : String)
    {v : Value}
    (hv : m.Sees v) :
    Grounded
      { m with
        instances := m.instances.modify id fun i =>
          { i with fields := Eval.putNamed name v i.fields } }
      held := by
  refine h.puts (m.puts_setField id name v) rfl (fun hr => ?_) fun o ho t ht => ?_
  · rw [Option.isSome_map]
    simpa [uses, object?] using hr
  · obtain ⟨i, hi, rfl⟩ := Option.map_eq_some_iff.mp ho
    rcases List.mem_cons.mp ht with rfl | ht
    · exact h.uses_of_instance hi _ List.mem_cons_self
    · obtain ⟨entry, hentry, ht⟩ := List.mem_flatMap.mp ht
      rcases Eval.mem_putNamed hentry with rfl | hentry
      · exact hv t ht
      · exact h.sees_field hi hentry t ht

/-- The scope for the methods of a class is found or made. -/
theorem forClass
    {parent : Option ClassId}
    (hparent : ∀ id ∈ parent, m.uses ⟨.classes, id⟩ = true) :
    Grounded { m with scopes := (m.scopes.forClass m.current parent).1 }
      (⟨.scopes, (m.scopes.forClass m.current parent).2⟩ :: held) := by
  cases parent with
  | none => exact h.hold h.current
  | some superclass =>
      refine h.createInner h.current fun b hb t ht => ?_
      rw [List.mem_singleton.mp hb] at ht
      rw [List.mem_singleton.mp ht]
      exact hparent superclass rfl

/-- A class is declared. Its methods are made before the class that they refer to. -/
theorem withClass
    {name : String} {parent : Option ClassId} {ds : List FunctionDecl}
    {table : List (String × MethodId)}
    (hparent : ∀ id ∈ parent, m.uses ⟨.classes, id⟩ = true)
    (htable : ListsOwn (m.withClass name parent ds table).methods m.classes.size table) :
    (m.withClass name parent ds table).Grounded held := by
  have hdefined : (m.define m.current ⟨name, .nil, false⟩).Grounded held :=
    h.define (m.sees_of_isPlain rfl)
  have hfirst : Grounded { m with scopes := (m.scopesForClass name parent).1 }
      (⟨.scopes, (m.scopesForClass name parent).2⟩ :: held) :=
    hdefined.forClass fun id hid => uses_of_define (hparent id hid)
  have hlast : (m.withClass name parent ds table).Grounded
      (⟨.scopes, (m.scopesForClass name parent).2⟩ :: held) := by
    refine hfirst.changed (fun _ => uses_withClass) (fun r o ho => ?_) rfl rfl
    obtain ⟨store, id⟩ := r
    cases store with
    | scopes =>
        -- in one scope the class is bound to its name
        refine (hfirst.refs_of_define (r := ⟨.scopes, id⟩) m.current
          ⟨name, .class m.classes.size, false⟩ ho).imp_right fun hrefs t ht => ?_
        rcases hrefs t ht with ht | ht
        · exact uses_withClass ht
        · exact List.mem_singleton.mp ht ▸ uses_newClass
    | methods =>
        obtain ⟨f, hf, rfl⟩ := Option.map_eq_some_iff.mp ho
        rcases method_withClass hf with hold | ⟨d, rfl⟩
        · exact .inl (congrArg (Option.map Object.method) hold)
        · refine .inr fun t ht => ?_
          rcases List.mem_cons.mp ht with rfl | ht
          · exact uses_withClass (hfirst.held _ List.mem_cons_self)
          · exact List.mem_singleton.mp ht ▸ uses_newClass
    | classes =>
        obtain ⟨c, hc, rfl⟩ := Option.map_eq_some_iff.mp ho
        rcases class_withClass hc with hold | rfl
        · exact .inl (congrArg (Option.map Object.class) hold)
        · refine .inr fun t ht => ?_
          rcases List.mem_append.mp ht with ht | ht
          · obtain ⟨superclass, hsuperclass, rfl⟩ := List.mem_map.mp ht
            exact uses_withClass (hparent superclass (Option.mem_toList.mp hsuperclass))
          · obtain ⟨entry, hentry, rfl⟩ := List.mem_map.mp ht
            obtain ⟨f, hf, -⟩ := htable entry hentry
            simp only [uses, object?, hf, Option.map_some, Option.isSome_some]
    | functions | natives | instances | lists | maps => exact .inl ho
  exact hlast.forget

end Write

end Grounded

theorem grounded_initial (clock : Nat → Float) :
    (initial clock).Grounded [⟨.scopes, globalScope⟩] where
  stored := by
    rintro ⟨store, id⟩ o ho t ht
    cases store with
    | scopes =>
        obtain ⟨scope, hscope, rfl⟩ := Option.map_eq_some_iff.mp ho
        rcases id with _ | _ | id
        · simp [initial] at hscope
          subst hscope
          simp [Object.refs, Builtin.all, Value.refs] at ht
          rcases ht with rfl | rfl | rfl | rfl <;> rfl
        · simp [initial] at hscope
          subst hscope
          simp [Object.refs] at ht
          subst ht
          rfl
        · simp [initial] at hscope
    | natives =>
        obtain ⟨f, hf, rfl⟩ := Option.map_eq_some_iff.mp ho
        rcases id with _ | _ | _ | _ | id <;> simp [initial, Builtin.all] at hf <;> subst hf <;> cases ht
    | functions | methods | classes | instances | lists | maps => simp [object?, initial] at ho
  current := rfl
  lastValue := by
    intro t ht
    cases ht
  held := by
    intro t ht
    rw [List.mem_singleton.mp ht]
    rfl

end Machine

end Lox
