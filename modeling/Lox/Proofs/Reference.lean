import Lox.Proofs.Kept

/-!
# What names stand for

In a scope, a name stands for the binding in the innermost scope around it that has one
(`Scopes.Refers`). As time goes by, a name can only come to stand for a binding further in. Nothing
but an assignment in a scope where the name stands for a binding changes this binding, unless the
scope that has it is the current one.
-/

namespace Lox

/-- A name that is bound stays bound. -/
theorem Scope.Kept.exists_find?
    {names : String → Prop} {old new : Scope} {name : String} {b : Binding}
    (h : old.Kept names new)
    (hfind : old.find? name = some b) :
    ∃ c, new.find? name = some c :=
  Option.isSome_iff_exists.mp (h.find?_isSome (hfind ▸ rfl))

namespace Scopes

/-- In the scope `id`, the name stands for the binding of the scope `owner`. -/
def Refers (scopes : Scopes) (id : ScopeId) (name : String) (owner : ScopeId) : Prop :=
  ∃ b, scopes.lookup? id name = some (owner, b)

variable {scopes old new : Scopes} {id owner parent : ScopeId} {name : String} {b : Binding}

section Lookup

theorem refers_self (h : (scopes.get id).find? name = some b) : scopes.Refers id name id :=
  ⟨b, lookup?_of_found h⟩

theorem Refers.of_parent
    (h : scopes.Refers parent name owner)
    (hnone : (scopes.get id).find? name = none)
    (hparent : (scopes.get id).parent = some parent)
    (hlt : parent < id) :
    scopes.Refers id name owner := by
  obtain ⟨b, hb⟩ := h
  exact ⟨b, (lookup?_of_parent hnone hparent hlt).trans hb⟩

/-- Either the scope itself has the binding, or the name stands for the same in the scope around. -/
theorem Refers.cases (h : scopes.Refers id name owner) :
    (owner = id ∧ ∃ b, (scopes.get id).find? name = some b) ∨
      (scopes.get id).find? name = none ∧
        ∃ parent, (scopes.get id).parent = some parent ∧ parent < id ∧
          scopes.Refers parent name owner := by
  obtain ⟨b, hb⟩ := h
  rw [lookup?] at hb
  cases hfind : (scopes.get id).find? name with
  | some c =>
      simp only [hfind, Option.some.injEq, Prod.mk.injEq] at hb
      exact .inl ⟨hb.1.symm, c, rfl⟩
  | none =>
      simp only [hfind] at hb
      cases hparent : (scopes.get id).parent with
      | none => simp [hparent] at hb
      | some parent =>
          simp only [hparent] at hb
          split at hb
          · next hlt => exact .inr ⟨rfl, parent, rfl, hlt, b, hb⟩
          · cases hb

/-- A scope that has a binding of its own has no other under the name. -/
theorem Refers.eq_self
    (h : scopes.Refers id name owner)
    (hfind : (scopes.get id).find? name = some b) :
    owner = id := by
  rcases h.cases with ⟨howner, -⟩ | ⟨hnone, -⟩
  · exact howner
  · rw [hfind] at hnone
    cases hnone

theorem Refers.find? (h : scopes.Refers id name owner) :
    ∃ b, (scopes.get owner).find? name = some b := by
  obtain ⟨b, hb⟩ := h
  exact ⟨b, find?_of_lookup? hb⟩

theorem Refers.le (h : scopes.Refers id name owner) : owner ≤ id := by
  induction id using Nat.strongRecOn with
  | ind id ih =>
      rcases h.cases with ⟨rfl, -⟩ | ⟨-, parent, -, hlt, hparent⟩
      · exact Nat.le_refl _
      · exact Nat.le_trans (ih parent hlt hparent) (Nat.le_of_lt hlt)

/-- The name has the value of the binding that it stands for. -/
theorem Refers.value_eq
    (h : scopes.Refers id name owner)
    (hfind : (scopes.get owner).find? name = some b) :
    scopes.value id name = .ok b.value := by
  obtain ⟨c, hc⟩ := h
  have hbc : b = c := Option.some.inj (hfind.symm.trans (find?_of_lookup? hc))
  simp only [value, hc, hbc]

/-- There is a scope that binds. -/
theorem lt_size_of_find? (h : (scopes.get id).find? name = some b) : id < scopes.all.size := by
  refine Nat.lt_of_not_le fun hle => ?_
  rw [get_of_size_le hle] at h
  cases h

end Lookup

section Later

variable {names : ScopeId → String → Prop}

/-- A name does not come to stand for what is bound further out. -/
theorem Kept.refers
    (h : old.Kept names new)
    (hfind : (old.get owner).find? name = some b)
    (hid : id < old.all.size)
    (hrefers : new.Refers id name owner) :
    old.Refers id name owner := by
  induction id using Nat.strongRecOn with
  | ind id ih =>
      have hkept := h.scope id hid
      rcases hrefers.cases with ⟨rfl, -⟩ | ⟨hnone, parent, hparent, hlt, houter⟩
      · exact refers_self hfind
      · have hnone' : (old.get id).find? name = none := by
          rw [Option.eq_none_iff_forall_ne_some]
          intro c hc
          obtain ⟨c', hc'⟩ := hkept.exists_find? hc
          rw [hnone] at hc'
          cases hc'
        exact (ih parent hlt (Nat.lt_trans hlt hid) houter).of_parent hnone'
          (hkept.parent ▸ hparent) hlt

/-- A name goes on to stand for what it stands for, or for something further in. -/
theorem Kept.exists_refers
    (h : old.Kept names new)
    (hid : id < old.all.size)
    (hrefers : old.Refers id name owner) :
    ∃ owner', owner ≤ owner' ∧ new.Refers id name owner' := by
  induction id using Nat.strongRecOn with
  | ind id ih =>
      have hkept := h.scope id hid
      cases hnew : (new.get id).find? name with
      | some c => exact ⟨id, hrefers.le, refers_self hnew⟩
      | none =>
          rcases hrefers.cases with ⟨-, c, hc⟩ | ⟨-, parent, hparent, hlt, houter⟩
          · obtain ⟨c', hc'⟩ := hkept.exists_find? hc
            rw [hnew] at hc'
            cases hc'
          · obtain ⟨owner', hle, howner'⟩ := ih parent hlt (Nat.lt_trans hlt hid) houter
            exact ⟨owner', hle, howner'.of_parent hnew (hkept.parent.trans hparent) hlt⟩

/-- An assignment to anything else leaves a binding alone. -/
theorem find?_assign
    {name' : String}
    (v : Value)
    (h : name' = name → ¬scopes.Refers id name owner) :
    ((scopes.assign id name' v).2.get owner).find? name = (scopes.get owner).find? name := by
  unfold Scopes.assign
  split
  · rfl
  · next owner' c hlookup =>
      have hfind := find?_of_lookup? hlookup
      have hname : c.name = name' := by simpa using List.find?_some hfind
      split
      · rfl
      · by_cases howner : owner = owner'
        · have hne : c.name ≠ name := by
            rintro rfl
            exact h hname.symm ⟨c, by rw [hname, howner]; exact hlookup⟩
          rw [howner, get_define_self _ (lt_size_of_find? hfind), Scope.find?_define, if_neg hne]
        · rw [get_define_of_ne _ howner]

end Later

end Scopes

end Lox
