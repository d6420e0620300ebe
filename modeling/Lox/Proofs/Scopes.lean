import Lox.Scope

/-!
# Scopes after an operation

What the scopes hold after a scope was created and after a binding was defined, seen through
`Scopes.get`, and the bindings of a scope after one of them was placed.
-/

namespace Lox

namespace Scope

theorem mem_place
    {b c : Binding} {bindings : List Binding}
    (h : c ∈ place b bindings) :
    c = b ∨ c ∈ bindings := by
  induction bindings with
  | nil => simpa [place] using h
  | cons old rest ih =>
      unfold place at h
      split at h
      · rcases List.mem_cons.mp h with rfl | h
        · exact .inl rfl
        · exact .inr (List.mem_cons_of_mem _ h)
      · rcases List.mem_cons.mp h with rfl | h
        · exact .inr List.mem_cons_self
        · exact (ih h).imp_right (List.mem_cons_of_mem _)

/-- A placed binding is found under its name, and every other name as before. -/
theorem find?_place (b : Binding) (name : String) (bindings : List Binding) :
    (place b bindings).find? (·.name == name) =
      if b.name = name then some b else bindings.find? (·.name == name) := by
  induction bindings with
  | nil =>
      by_cases h : b.name = name <;> simp [place, h]
  | cons old rest ih =>
      by_cases hold : old.name = b.name
      · by_cases h : b.name = name <;> simp [place, hold, h]
      · by_cases h : old.name = name
        · have hne : b.name ≠ name := fun hb => hold (h.trans hb.symm)
          simp [place, h, hne, hne.symm]
        · simp [place, hold, h, ih]

theorem find?_define (scope : Scope) (b : Binding) (name : String) :
    (scope.define b).find? name = if b.name = name then some b else scope.find? name :=
  find?_place b name scope.bindings

@[simp] theorem define_parent (scope : Scope) (b : Binding) :
    (scope.define b).parent = scope.parent :=
  rfl

end Scope

namespace Scopes

@[simp] theorem size_create (scopes : Scopes) (scope : Scope) :
    (scopes.create scope).1.all.size = scopes.all.size + 1 :=
  Array.size_push scope

@[simp] theorem size_define (scopes : Scopes) (id : ScopeId) (b : Binding) :
    (scopes.define id b).all.size = scopes.all.size :=
  Array.size_modify

/-- There is nothing in a scope that does not exist. -/
theorem get_of_size_le {scopes : Scopes} {id : ScopeId} (h : scopes.all.size ≤ id) :
    scopes.get id = ⟨none, []⟩ := by
  simp [get, Array.getElem?_eq_none h]

@[simp] theorem get_create_self (scopes : Scopes) (scope : Scope) :
    (scopes.create scope).1.get scopes.all.size = scope := by
  simp [get, create]

theorem get_create_of_ne
    {scopes : Scopes} {id : ScopeId}
    (scope : Scope)
    (h : id ≠ scopes.all.size) :
    (scopes.create scope).1.get id = scopes.get id := by
  simp [get, create, Array.getElem?_push, h]

theorem get_define_self
    {scopes : Scopes} {id : ScopeId}
    (b : Binding)
    (h : id < scopes.all.size) :
    (scopes.define id b).get id = (scopes.get id).define b := by
  simp [get, define, h, Array.getElem_modify_self]

theorem get_define_of_ne
    {scopes : Scopes} {id j : ScopeId}
    (b : Binding)
    (h : j ≠ id) :
    (scopes.define id b).get j = scopes.get j := by
  simp [get, define, Array.getElem?_modify, Ne.symm h]

/-- A scope that is created and then given a binding. -/
theorem get_define_create (scopes : Scopes) (scope : Scope) (b : Binding) :
    ((scopes.create scope).1.define scopes.all.size b).get scopes.all.size = scope.define b := by
  rw [get_define_self b (by simp), get_create_self]

/-- A definition in a scope that does not exist has no effect. -/
theorem define_of_size_le
    {scopes : Scopes} {id : ScopeId}
    (b : Binding)
    (h : scopes.all.size ≤ id) :
    scopes.define id b = scopes := by
  have hall : scopes.all.modify id (·.define b) = scopes.all := by
    apply Array.ext_getElem?
    intro j
    by_cases hj : id = j
    · subst hj
      simp [Array.getElem?_modify, Array.getElem?_eq_none h]
    · simp [Array.getElem?_modify, hj]
  unfold define
  rw [hall]

/-- Every scope keeps its parent when a binding is defined. -/
@[simp] theorem parent_define (scopes : Scopes) (id j : ScopeId) (b : Binding) :
    ((scopes.define id b).get j).parent = (scopes.get j).parent := by
  by_cases hj : j = id
  · subst hj
    by_cases h : j < scopes.all.size
    · rw [get_define_self b h, Scope.define_parent]
    · rw [define_of_size_le b (Nat.le_of_not_lt h)]
  · rw [get_define_of_ne b hj]

section Lookup

theorem lookup?_of_found
    {scopes : Scopes} {id : ScopeId} {name : String} {b : Binding}
    (h : (scopes.get id).find? name = some b) :
    scopes.lookup? id name = some (id, b) := by
  rw [lookup?]
  simp [h]

theorem lookup?_of_parent
    {scopes : Scopes} {id parent : ScopeId} {name : String}
    (h : (scopes.get id).find? name = none)
    (hparent : (scopes.get id).parent = some parent)
    (hlt : parent < id) :
    scopes.lookup? id name = scopes.lookup? parent name := by
  rw [lookup?]
  simp [h, hparent, hlt]

/-- What is looked up is found in the scope that the answer names. -/
theorem find?_of_lookup?
    {scopes : Scopes} {name : String} {owner : ScopeId} {b : Binding} :
    ∀ {id : ScopeId}, scopes.lookup? id name = some (owner, b) →
      (scopes.get owner).find? name = some b := by
  intro id
  induction id using Nat.strongRecOn with
  | ind id ih =>
      intro h
      rw [lookup?] at h
      cases hfind : (scopes.get id).find? name with
      | some c =>
          simp only [hfind, Option.some.injEq, Prod.mk.injEq] at h
          obtain ⟨rfl, rfl⟩ := h
          exact hfind
      | none =>
          simp only [hfind] at h
          cases hparent : (scopes.get id).parent with
          | none => simp [hparent] at h
          | some parent =>
              simp only [hparent] at h
              split at h
              · next hlt => exact ih parent hlt h
              · cases h

end Lookup

end Scopes

end Lox
