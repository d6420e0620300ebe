import Lox.Proofs.Kept
import Lox.Proofs.Tree.Placement

/-!
# Sound scopes

Scopes are sound if the scope around each of them was created before it, and if `this` is only
ever bound to instances and `super` to classes. In sound scopes a lookup follows the links outward
without any further condition, and a name that is visible from a scope stays visible.
-/

namespace Lox

/-- The names of the language are bound to what they stand for. -/
def Binding.Proper (b : Binding) : Prop :=
  (b.name = "this" → ∃ receiver, b.value = .instance receiver) ∧
    (b.name = "super" → ∃ superclass, b.value = .class superclass)

theorem Binding.proper_of_not_isReserved {b : Binding} (h : ¬IsReserved b.name) : b.Proper :=
  ⟨fun hname => absurd (.inl hname) h, fun hname => absurd (.inr hname) h⟩

namespace Scopes

/-- Parents come first, and the names of the language are bound properly. -/
structure Sound (scopes : Scopes) : Prop where
  ordered : ∀ id parent, (scopes.get id).parent = some parent → parent < id
  proper : ∀ id, ∀ b ∈ (scopes.get id).bindings, b.Proper

namespace Sound

variable {scopes : Scopes}

theorem create
    (h : scopes.Sound)
    {scope : Scope}
    (hparent : ∀ parent ∈ scope.parent, parent < scopes.all.size)
    (hbindings : ∀ b ∈ scope.bindings, b.Proper) :
    (scopes.create scope).1.Sound where
  ordered id parent hid := by
    by_cases hnew : id = scopes.all.size
    · subst hnew
      rw [get_create_self] at hid
      exact hparent parent hid
    · rw [get_create_of_ne scope hnew] at hid
      exact h.ordered id parent hid
  proper id b hb := by
    by_cases hnew : id = scopes.all.size
    · subst hnew
      rw [get_create_self] at hb
      exact hbindings b hb
    · rw [get_create_of_ne scope hnew] at hb
      exact h.proper id b hb

theorem define
    (h : scopes.Sound)
    {b : Binding}
    (hb : b.Proper)
    (id : ScopeId) :
    (scopes.define id b).Sound where
  ordered j parent hj := h.ordered j parent (by rwa [parent_define] at hj)
  proper j c hc := by
    by_cases hj : j = id
    · subst hj
      by_cases hsize : j < scopes.all.size
      · rw [get_define_self b hsize] at hc
        rcases Scope.mem_place hc with rfl | hc
        · exact hb
        · exact h.proper j c hc
      · rw [define_of_size_le b (Nat.le_of_not_lt hsize)] at hc
        exact h.proper j c hc
    · rw [get_define_of_ne b hj] at hc
      exact h.proper j c hc

theorem assign
    (h : scopes.Sound)
    {name : String}
    (hname : ¬IsReserved name)
    (id : ScopeId)
    (v : Value) :
    (scopes.assign id name v).2.Sound := by
  unfold Scopes.assign
  split
  · exact h
  · next owner b hlookup =>
      have hb : b.name = name := by simpa using List.find?_some (find?_of_lookup? hlookup)
      split
      · exact h
      · exact h.define (Binding.proper_of_not_isReserved (by simpa [hb] using hname)) owner

/-- A lookup that finds nothing in a scope goes on in its parent. -/
theorem lookup?_eq (h : scopes.Sound) (id : ScopeId) (name : String) :
    scopes.lookup? id name =
      match (scopes.get id).find? name with
      | some b => some (id, b)
      | none => (scopes.get id).parent.bind fun parent => scopes.lookup? parent name := by
  rw [lookup?]
  cases (scopes.get id).find? name with
  | some b => rfl
  | none =>
      cases hparent : (scopes.get id).parent with
      | none => simp
      | some parent => simp [h.ordered id parent hparent]

/-- The links outward end. -/
theorem wellFounded (h : scopes.Sound) :
    WellFounded fun parent id => (scopes.get id).parent = some parent :=
  Subrelation.wf (h.ordered _ _) Nat.lt_wfRel.wf

end Sound

/-- The name is visible from the scope. -/
def Binds (scopes : Scopes) (id : ScopeId) (name : String) : Prop :=
  (scopes.lookup? id name).isSome = true

section Binds

variable {scopes old new : Scopes} {id : ScopeId} {name : String}

theorem binds_of_find? (h : ((scopes.get id).find? name).isSome = true) : scopes.Binds id name := by
  obtain ⟨b, hb⟩ := Option.isSome_iff_exists.mp h
  simp [Binds, lookup?_of_found hb]

theorem binds_of_parent
    {parent : ScopeId}
    (hparent : (scopes.get id).parent = some parent)
    (hlt : parent < id)
    (h : scopes.Binds parent name) :
    scopes.Binds id name := by
  cases hfind : (scopes.get id).find? name with
  | some b => exact binds_of_find? (by simp [hfind])
  | none =>
      unfold Binds
      rwa [lookup?_of_parent hfind hparent hlt]

/-- A visible name is bound in the scope itself or visible from its parent. -/
theorem Binds.cases (h : scopes.Binds id name) :
    ((scopes.get id).find? name).isSome = true ∨
      ∃ parent, (scopes.get id).parent = some parent ∧ parent < id ∧ scopes.Binds parent name := by
  unfold Binds at h
  rw [lookup?] at h
  cases hfind : (scopes.get id).find? name with
  | some b => exact .inl rfl
  | none =>
      cases hparent : (scopes.get id).parent with
      | none => simp [hfind, hparent] at h
      | some parent =>
          by_cases hlt : parent < id
          · exact .inr ⟨parent, rfl, hlt, by simpa [hfind, hparent, hlt, Binds] using h⟩
          · simp [hfind, hparent, hlt] at h

/-- A name that is visible from a scope stays visible. -/
theorem Binds.of_kept
    {names : ScopeId → String → Prop}
    (hkept : old.Kept names new) :
    ∀ {id : ScopeId}, id < old.all.size → old.Binds id name → new.Binds id name := by
  intro id
  induction id using Nat.strongRecOn with
  | ind id ih =>
      intro hid h
      rcases h.cases with hfind | ⟨parent, hparent, hlt, h⟩
      · exact binds_of_find? ((hkept.scope id hid).find?_isSome hfind)
      · refine binds_of_parent ((hkept.scope id hid).parent.trans hparent) hlt ?_
        exact ih parent hlt (Nat.lt_trans hlt hid) h

theorem binds_create_self
    {scope : Scope}
    (h : (scope.find? name).isSome = true ∨
      ∃ parent, scope.parent = some parent ∧ parent < scopes.all.size ∧ scopes.Binds parent name) :
    (scopes.create scope).1.Binds scopes.all.size name := by
  rcases h with h | ⟨parent, hparent, hlt, h⟩
  · exact binds_of_find? (by rwa [get_create_self])
  · have hkept : scopes.Kept (fun _ _ => False) (scopes.create scope).1 := .create _ _
    exact binds_of_parent (by rwa [get_create_self]) hlt (h.of_kept hkept hlt)

/-- A name that is visible stands for the value of a proper binding. -/
theorem Sound.value_of_binds {name : String} (h : scopes.Sound) (hname : scopes.Binds id name) :
    ∃ b : Binding, b.Proper ∧ b.name = name ∧ scopes.value id name = .ok b.value := by
  obtain ⟨⟨owner, b⟩, hlookup⟩ := Option.isSome_iff_exists.mp hname
  have hfind := find?_of_lookup? hlookup
  refine ⟨b, h.proper owner b (List.mem_of_find?_eq_some hfind), ?_, ?_⟩
  · simpa using List.find?_some hfind
  · simp [Scopes.value, hlookup]

theorem Sound.value_this (h : scopes.Sound) (hthis : scopes.Binds id "this") :
    ∃ receiver, scopes.value id "this" = .ok (.instance receiver) := by
  obtain ⟨b, hproper, hname, hvalue⟩ := h.value_of_binds hthis
  obtain ⟨receiver, hreceiver⟩ := hproper.1 hname
  exact ⟨receiver, hreceiver ▸ hvalue⟩

theorem Sound.value_super (h : scopes.Sound) (hsuper : scopes.Binds id "super") :
    ∃ superclass, scopes.value id "super" = .ok (.class superclass) := by
  obtain ⟨b, hproper, hname, hvalue⟩ := h.value_of_binds hsuper
  obtain ⟨superclass, hsuperclass⟩ := hproper.2 hname
  exact ⟨superclass, hsuperclass ▸ hvalue⟩

end Binds

/-- In the scope, the names of the language are visible that code inside the constructs may use. -/
structure Serves (scopes : Scopes) (k : Enclosure) (id : ScopeId) : Prop where
  this : k.classHasSuperclass.isSome = true → scopes.Binds id "this"
  super : k.classHasSuperclass = some true → scopes.Binds id "super"

namespace Serves

variable {k : Enclosure} {scopes : Scopes} {id : ScopeId}

theorem of_kept
    {names : ScopeId → String → Prop} {new : Scopes}
    (h : scopes.Serves k id)
    (hkept : scopes.Kept names new)
    (hid : id < scopes.all.size) :
    new.Serves k id :=
  ⟨fun hk => (h.this hk).of_kept hkept hid, fun hk => (h.super hk).of_kept hkept hid⟩

/-- What is visible from a scope is visible in a new one inside it. -/
theorem create
    {scope : Scope}
    (h : scopes.Serves k id)
    (hparent : scope.parent = some id)
    (hid : id < scopes.all.size) :
    (scopes.create scope).1.Serves k scopes.all.size :=
  ⟨fun hk => binds_create_self (.inr ⟨id, hparent, hid, h.this hk⟩),
    fun hk => binds_create_self (.inr ⟨id, hparent, hid, h.super hk⟩)⟩

/-- What is visible from a scope is visible in a copy of it. -/
theorem copy
    (h : scopes.Serves k id)
    (hid : id < scopes.all.size) :
    (scopes.copy id).1.Serves k scopes.all.size := by
  have hcopy (name : String) (hname : scopes.Binds id name) :
      (scopes.copy id).1.Binds scopes.all.size name := by
    refine binds_create_self (hname.cases.imp_right ?_)
    rintro ⟨parent, hparent, hlt, hbinds⟩
    exact ⟨parent, hparent, Nat.lt_trans hlt hid, hbinds⟩
  exact ⟨fun hk => hcopy _ (h.this hk), fun hk => hcopy _ (h.super hk)⟩

end Serves

end Scopes

end Lox
