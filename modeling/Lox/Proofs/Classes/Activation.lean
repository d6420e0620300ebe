import Lox.Proofs.Entering

/-!
# Scopes of method calls

The call of a method makes a scope that binds `this`, inside the scope that the method closes over.
The body runs further inside, in scopes that bind neither `this` nor `super`. So from all of them,
and from the scopes that functions made there close over, a lookup of `this` ends at the instance of
the call, and a lookup of `super` goes on where the method was declared.
-/

namespace Lox

namespace Scopes

/-- The later scopes have the earlier ones among them, with the same parents and the same bindings
of `this` and `super`. -/
structure Extend (old new : Scopes) : Prop where
  size_le : old.all.size ≤ new.all.size
  parent : ∀ id < old.all.size, (new.get id).parent = (old.get id).parent
  reserved : ∀ id < old.all.size, ∀ name, IsReserved name →
    (new.get id).find? name = (old.get id).find? name

namespace Extend

variable {scopes : Scopes}

theorem refl (scopes : Scopes) : scopes.Extend scopes :=
  ⟨Nat.le_refl _, fun _ _ => rfl, fun _ _ _ _ => rfl⟩

theorem trans {a b c : Scopes} (hab : a.Extend b) (hbc : b.Extend c) : a.Extend c where
  size_le := Nat.le_trans hab.size_le hbc.size_le
  parent id hid := (hbc.parent id (Nat.lt_of_lt_of_le hid hab.size_le)).trans (hab.parent id hid)
  reserved id hid name hname :=
    (hbc.reserved id (Nat.lt_of_lt_of_le hid hab.size_le) name hname).trans
      (hab.reserved id hid name hname)

theorem create (scopes : Scopes) (scope : Scope) : scopes.Extend (scopes.create scope).1 where
  size_le := by simp
  parent id hid := by rw [get_create_of_ne scope (Nat.ne_of_lt hid)]
  reserved id hid name _ := by rw [get_create_of_ne scope (Nat.ne_of_lt hid)]

theorem define (scopes : Scopes) (id : ScopeId) {b : Binding} (hb : ¬IsReserved b.name) :
    scopes.Extend (scopes.define id b) where
  size_le := by simp
  parent j _ := parent_define scopes id j b
  reserved j hj name hname := by
    by_cases hid : j = id
    · subst hid
      have hne : b.name ≠ name := fun h => hb (h ▸ hname)
      rw [get_define_self b hj, Scope.find?_define, if_neg hne]
    · rw [get_define_of_ne b hid]

theorem assign
    (scopes : Scopes)
    (id : ScopeId)
    {name : String}
    (hname : ¬IsReserved name)
    (v : Value) :
    scopes.Extend (scopes.assign id name v).2 := by
  unfold Scopes.assign
  split
  · exact .refl scopes
  · next owner b hlookup =>
      have hb : b.name = name := by simpa using List.find?_some (find?_of_lookup? hlookup)
      split
      · exact .refl scopes
      · exact .define scopes owner (by simpa [hb] using hname)

end Extend

/-- The scope binds neither `this` nor `super`. -/
def IsPlain (scopes : Scopes) (id : ScopeId) : Prop :=
  ∀ name, IsReserved name → (scopes.get id).find? name = none

/-- The scope is inside `outer`, and on the way there `this` and `super` are not bound. -/
inductive Inside (scopes : Scopes) (outer : ScopeId) : ScopeId → Prop
  | child {id : ScopeId} :
      (scopes.get id).parent = some outer → outer < id → scopes.IsPlain id → Inside scopes outer id
  | step {id parent : ScopeId} :
      (scopes.get id).parent = some parent → parent < id → scopes.IsPlain id →
      Inside scopes outer parent → Inside scopes outer id

namespace Inside

variable {scopes : Scopes} {outer id : ScopeId}

theorem lt (h : scopes.Inside outer id) : outer < id := by
  induction h with
  | child _ hlt _ => exact hlt
  | step _ hlt _ _ ih => exact Nat.lt_trans ih hlt

/-- A lookup of `this` or `super` gets past the scopes on the way. -/
theorem lookup?_eq {name : String} (h : scopes.Inside outer id) (hname : IsReserved name) :
    scopes.lookup? id name = scopes.lookup? outer name := by
  induction h with
  | child hparent hlt hplain => exact lookup?_of_parent (hplain name hname) hparent hlt
  | step hparent hlt hplain _ ih =>
      exact (lookup?_of_parent (hplain name hname) hparent hlt).trans ih

theorem extend
    {new : Scopes}
    (h : scopes.Inside outer id)
    (hnew : scopes.Extend new)
    (hid : id < scopes.all.size) :
    new.Inside outer id := by
  have hplain {id : ScopeId} (h : scopes.IsPlain id) (hid : id < scopes.all.size) :
      new.IsPlain id :=
    fun name hname => (hnew.reserved id hid name hname).trans (h name hname)
  induction h with
  | child hparent hlt hp => exact .child ((hnew.parent _ hid).trans hparent) hlt (hplain hp hid)
  | step hparent hlt hp _ ih =>
      exact .step ((hnew.parent _ hid).trans hparent) hlt (hplain hp hid)
        (ih (Nat.lt_trans hlt hid))

/-- A scope with the same parent and bindings is inside the same scope. -/
theorem copy (h : scopes.Inside outer id) (hid : id < scopes.all.size) :
    (scopes.copy id).1.Inside outer scopes.all.size := by
  have hext : scopes.Extend (scopes.copy id).1 := .create _ _
  have hget : (scopes.copy id).1.get scopes.all.size = scopes.get id := get_create_self _ _
  have hplain (hp : scopes.IsPlain id) : (scopes.copy id).1.IsPlain scopes.all.size := by
    unfold IsPlain
    rwa [hget]
  cases h with
  | child hparent hlt hp =>
      exact .child (hget ▸ hparent) (Nat.lt_trans hlt hid) (hplain hp)
  | step hparent hlt hp hrest =>
      exact .step (hget ▸ hparent) (Nat.lt_trans hlt hid) (hplain hp)
        (hrest.extend hext (Nat.lt_trans hlt hid))

end Inside

section Create

variable {scopes : Scopes} {outer id : ScopeId} {bindings : List Binding}

theorem isPlain_create
    {parent : Option ScopeId}
    (hbindings : ∀ b ∈ bindings, ¬IsReserved b.name) :
    (scopes.create ⟨parent, Scope.bound bindings⟩).1.IsPlain scopes.all.size := by
  intro name hname
  rw [get_create_self]
  refine List.find?_eq_none.mpr fun b hb heq => ?_
  exact hbindings b (Scope.mem_bound hb) (by simpa [eq_of_beq heq] using hname)

/-- A new scope inside one that is inside `outer`. -/
theorem Inside.create
    (h : scopes.Inside outer id)
    (hid : id < scopes.all.size)
    (hbindings : ∀ b ∈ bindings, ¬IsReserved b.name) :
    (scopes.create ⟨some id, Scope.bound bindings⟩).1.Inside outer scopes.all.size :=
  .step (by simp) hid (isPlain_create hbindings) (h.extend (.create _ _) hid)

end Create

/-- The scope binds `this` to the instance, for a call of a method that closes over `closure`. -/
structure IsCall (scopes : Scopes) (closure : ScopeId) (receiver : InstanceId) (id : ScopeId) :
    Prop where
  parent : (scopes.get id).parent = some closure
  lt : closure < id
  this : (scopes.get id).find? "this" = some ⟨"this", .instance receiver, false⟩
  super : (scopes.get id).find? "super" = none

namespace IsCall

variable {scopes : Scopes} {closure : ScopeId} {receiver : InstanceId}

theorem extend
    {new : Scopes} {id : ScopeId}
    (h : scopes.IsCall closure receiver id)
    (hnew : scopes.Extend new)
    (hid : id < scopes.all.size) :
    new.IsCall closure receiver id where
  parent := (hnew.parent id hid).trans h.parent
  lt := h.lt
  this := (hnew.reserved id hid _ (.inl rfl)).trans h.this
  super := (hnew.reserved id hid _ (.inr rfl)).trans h.super

/-- The scope that a call makes for `this`. -/
theorem create (receiver : InstanceId) (hclosure : closure < scopes.all.size) :
    (scopes.create ⟨some closure, [⟨"this", .instance receiver, false⟩]⟩).1.IsCall closure receiver
      scopes.all.size where
  parent := by simp
  lt := hclosure
  this := by simp [Scope.find?]
  super := by simp [Scope.find?]

end IsCall

/-- Code in the scope `id` belongs to a call on the instance of a method that closes over
`closure`: it is part of the body of the method, or of a function that was made there. -/
def InCall (scopes : Scopes) (closure : ScopeId) (receiver : InstanceId) (id : ScopeId) : Prop :=
  ∃ call, scopes.IsCall closure receiver call ∧ scopes.Inside call id

namespace InCall

variable {scopes : Scopes} {closure id : ScopeId} {receiver : InstanceId}

theorem value_this (h : scopes.InCall closure receiver id) :
    scopes.value id "this" = .ok (.instance receiver) := by
  obtain ⟨call, hcall, hinside⟩ := h
  simp only [value, hinside.lookup?_eq (.inl rfl), lookup?_of_found hcall.this]

theorem value_super
    {superclass : ClassId}
    (h : scopes.InCall closure receiver id)
    (hsuper : (scopes.get closure).find? "super" = some ⟨"super", .class superclass, false⟩) :
    scopes.value id "super" = .ok (.class superclass) := by
  obtain ⟨call, hcall, hinside⟩ := h
  simp only [value, hinside.lookup?_eq (.inr rfl),
    lookup?_of_parent hcall.super hcall.parent hcall.lt, lookup?_of_found hsuper]

/-- A scope belongs to one call at most. -/
theorem unique
    {closure' : ScopeId} {receiver' : InstanceId}
    (h : scopes.InCall closure receiver id)
    (h' : scopes.InCall closure' receiver' id) :
    closure = closure' ∧ receiver = receiver' := by
  obtain ⟨call, hcall, hinside⟩ := h
  obtain ⟨call', hcall', hinside'⟩ := h'
  have hlookup := (hinside.lookup?_eq (.inl rfl)).trans (lookup?_of_found hcall.this)
  have hlookup' := (hinside'.lookup?_eq (.inl rfl)).trans (lookup?_of_found hcall'.this)
  have heq := Option.some.inj (hlookup.symm.trans hlookup')
  obtain rfl : call = call' := congrArg Prod.fst heq
  exact ⟨Option.some.inj (hcall.parent.symm.trans hcall'.parent),
    Value.instance.inj (congrArg (fun found => found.2.value) heq)⟩

theorem extend
    {new : Scopes}
    (h : scopes.InCall closure receiver id)
    (hnew : scopes.Extend new)
    (hid : id < scopes.all.size) :
    new.InCall closure receiver id := by
  obtain ⟨call, hcall, hinside⟩ := h
  exact ⟨call, hcall.extend hnew (Nat.lt_trans hinside.lt hid), hinside.extend hnew hid⟩

/-- A new scope inside the present one belongs to the same call. -/
theorem create
    {bindings : List Binding}
    (h : scopes.InCall closure receiver id)
    (hid : id < scopes.all.size)
    (hbindings : ∀ b ∈ bindings, ¬IsReserved b.name) :
    (scopes.create ⟨some id, Scope.bound bindings⟩).1.InCall closure receiver scopes.all.size := by
  obtain ⟨call, hcall, hinside⟩ := h
  exact ⟨call, hcall.extend (.create _ _) (Nat.lt_trans hinside.lt hid),
    hinside.create hid hbindings⟩

theorem copy (h : scopes.InCall closure receiver id) (hid : id < scopes.all.size) :
    (scopes.copy id).1.InCall closure receiver scopes.all.size := by
  obtain ⟨call, hcall, hinside⟩ := h
  exact ⟨call, hcall.extend (.create _ _) (Nat.lt_trans hinside.lt hid), hinside.copy hid⟩

/-- The scope of the parameters belongs to the call for which it is made. -/
theorem parameters
    {call : ScopeId} {bindings : List Binding}
    (hcall : scopes.IsCall closure receiver call)
    (hlt : call < scopes.all.size)
    (hbindings : ∀ b ∈ bindings, ¬IsReserved b.name) :
    (scopes.create ⟨some call, Scope.bound bindings⟩).1.InCall closure receiver scopes.all.size :=
  ⟨call, hcall.extend (.create _ _) hlt, .child (by simp) hlt (isPlain_create hbindings)⟩

end InCall

end Scopes

end Lox
