import Lox.Proofs.Scopes
import Lox.Proofs.Simulation
import Lox.Proofs.Tree.Placement

/-!
# Entering scopes

The machine after a scope was entered, written out: every way to enter a scope creates one scope,
with the bindings that it has from the beginning.
-/

namespace Lox

/-- The bindings of a scope that is given bindings one after another. -/
def Scope.bound (bindings : List Binding) : List Binding :=
  bindings.foldl (fun bs b => place b bs) []

theorem Scope.mem_bound {b : Binding} {bindings : List Binding} (h : b ∈ bound bindings) :
    b ∈ bindings := by
  suffices hfold : ∀ (rest start : List Binding),
      b ∈ rest.foldl (fun bs c => place c bs) start → b ∈ start ∨ b ∈ rest by
    exact (hfold bindings [] h).resolve_left (by simp)
  intro rest
  induction rest with
  | nil => exact fun start h => .inl h
  | cons c rest ih =>
      intro start h
      rcases ih _ h with h | h
      · rcases mem_place h with rfl | h
        · exact .inr List.mem_cons_self
        · exact .inl h
      · exact .inr (List.mem_cons_of_mem c h)

/-- Parameters bind no name of the language. -/
theorem not_isReserved_of_mem_parameterBindings
    {params : List String} {arguments : List Value} {b : Binding}
    (hparams : ∀ name ∈ params, ¬IsReserved name)
    (hb : b ∈ parameterBindings params arguments) :
    ¬IsReserved b.name := by
  obtain ⟨p, hp, rfl⟩ := List.mem_map.mp hb
  exact hparams p.1 (List.of_mem_zip hp).1

namespace Scopes

/-- A new scope that is given a binding could have been created with it. -/
theorem define_create (scopes : Scopes) (scope : Scope) (b : Binding) :
    (scopes.create scope).1.define scopes.all.size b = (scopes.create (scope.define b)).1 := by
  have hall : (scopes.all.push scope).modify scopes.all.size (·.define b) =
      scopes.all.push (scope.define b) := by
    apply Array.ext_getElem?
    intro j
    by_cases hj : j = scopes.all.size
    · subst hj
      simp [Array.getElem_modify_self]
    · simp [Array.getElem?_modify, Array.getElem?_push, hj, Ne.symm hj]
  unfold define create
  rw [hall]

end Scopes

namespace Machine

variable (m : Machine)

/-- Entering a scope creates it. -/
theorem enter_eq (parent : ScopeId) (bindings : List Binding) :
    m.enter parent bindings =
      { m with
        scopes := (m.scopes.create ⟨some parent, Scope.bound bindings⟩).1
        current := m.scopes.all.size } := by
  suffices h : ∀ (rest start : List Binding),
      rest.foldl (fun n b => n.define m.scopes.all.size b)
          { m with scopes := (m.scopes.create ⟨some parent, start⟩).1 } =
        { m with
          scopes :=
            (m.scopes.create ⟨some parent, rest.foldl (fun bs b => Scope.place b bs) start⟩).1 } by
    exact congrArg (fun n : Machine => { n with current := m.scopes.all.size }) (h bindings [])
  intro rest
  induction rest with
  | nil => exact fun _ => rfl
  | cons b rest ih =>
      intro start
      rw [List.foldl_cons, List.foldl_cons, ← ih]
      simp only [Machine.define, Scopes.define_create]
      rfl

theorem bindThis_eq (parent : ScopeId) (receiver : InstanceId) :
    m.bindThis parent receiver =
      { m with
        scopes := (m.scopes.create ⟨some parent, [⟨"this", .instance receiver, false⟩]⟩).1 } :=
  congrArg (fun scopes => { m with scopes := scopes }) (m.scopes.define_create ⟨some parent, []⟩ _)

theorem bindSuper_eq (parent : ScopeId) (superclass : ClassId) :
    m.bindSuper parent superclass =
      { m with
        scopes := (m.scopes.create ⟨some parent, [⟨"super", .class superclass, false⟩]⟩).1 } :=
  congrArg (fun scopes => { m with scopes := scopes }) (m.scopes.define_create ⟨some parent, []⟩ _)

end Machine

end Lox
