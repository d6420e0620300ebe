import Lox.Proofs.Scopes
import Mathlib.Data.List.Forall2
import Mathlib.Data.List.Nodup

/-!
# What scopes keep

`Scopes.Kept names` compares the scopes before and after some code ran. Every scope from before is
still there, with the same parent and the same names in the same order. A binding keeps whether it
is constant, and its value if it is. Only what `names` says of a scope may be bound anew there, in
the place of a binding of the same name or at the end.
-/

namespace Lox

/-- The binding is the same as before, but for the value of a variable; a name among `names` may
be bound anew. -/
def Binding.Kept (names : String → Prop) (old new : Binding) : Prop :=
  new.name = old.name ∧
    (names old.name ∨
      (new.isConst = old.isConst ∧ (old.isConst = true → new.value = old.value)))

namespace Binding.Kept

variable {names : String → Prop}

theorem refl (b : Binding) : b.Kept names b :=
  ⟨rfl, .inr ⟨rfl, fun _ => rfl⟩⟩

theorem trans {a b c : Binding} (hab : a.Kept names b) (hbc : b.Kept names c) : a.Kept names c := by
  obtain ⟨hname, hab⟩ := hab
  obtain ⟨hname', hbc⟩ := hbc
  refine ⟨hname'.trans hname, ?_⟩
  rcases hab with h | ⟨hconst, hvalue⟩
  · exact .inl h
  rcases hbc with h | ⟨hconst', hvalue'⟩
  · exact .inl (hname ▸ h)
  refine .inr ⟨hconst'.trans hconst, fun h => ?_⟩
  rw [hvalue' (hconst.trans h), hvalue h]

theorem mono
    {names' : String → Prop} {b c : Binding}
    (h : b.Kept names c)
    (hnames : ∀ name, names name → names' name) :
    b.Kept names' c :=
  ⟨h.1, h.2.imp_left (hnames _)⟩

end Binding.Kept

/-- The names of bindings are the same, in the same order, when all bindings are kept. -/
theorem names_eq_of_kept
    {names : String → Prop} {old new : List Binding}
    (h : List.Forall₂ (Binding.Kept names) old new) :
    new.map (·.name) = old.map (·.name) := by
  induction h with
  | nil => rfl
  | cons hb _ ih => simp [hb.1, ih]

theorem forall₂_kept_trans
    {names : String → Prop} {as bs cs : List Binding}
    (h : List.Forall₂ (Binding.Kept names) as bs)
    (h' : List.Forall₂ (Binding.Kept names) bs cs) :
    List.Forall₂ (Binding.Kept names) as cs := by
  induction h generalizing cs with
  | nil => exact h'
  | cons hfirst _ ih =>
      cases h' with
      | cons hfirst' hrest' => exact .cons (hfirst.trans hfirst') (ih hrest')

/-- The scope has the same parent as before and the same bindings, but for the values of
variables; names among `names` may have been bound anew, in the place of a binding of the same
name or at the end. -/
structure Scope.Kept (names : String → Prop) (old new : Scope) : Prop where
  parent : new.parent = old.parent
  bindings : ∃ kept added, new.bindings = kept ++ added ∧
    List.Forall₂ (Binding.Kept names) old.bindings kept ∧
    (added.map (·.name)).Nodup ∧
    ∀ b ∈ added, names b.name ∧ b.name ∉ old.bindings.map (·.name)

namespace Scope.Kept

variable {names : String → Prop}

theorem refl (scope : Scope) : scope.Kept names scope where
  parent := rfl
  bindings :=
    ⟨scope.bindings, [], by simp, List.forall₂_same.mpr fun b _ => .refl b, by simp, by simp⟩

theorem trans {a b c : Scope} (hab : a.Kept names b) (hbc : b.Kept names c) : a.Kept names c where
  parent := hbc.parent.trans hab.parent
  bindings := by
    obtain ⟨kept, added, hb, hkept, hnodup, hadded⟩ := hab.bindings
    obtain ⟨kept', added', hc, hkept', hnodup', hadded'⟩ := hbc.bindings
    -- what is kept of `b` is made up of what is kept of `a` and of what was added to it
    rw [hb] at hkept'
    obtain ⟨first, second, hfirst, hsecond, rfl⟩ :
        ∃ first second, List.Forall₂ (Binding.Kept names) kept first ∧
          List.Forall₂ (Binding.Kept names) added second ∧ kept' = first ++ second :=
      ⟨kept'.take kept.length, kept'.drop kept.length,
        by simpa using List.forall₂_take kept.length hkept',
        by simpa using List.forall₂_drop kept.length hkept', (List.take_append_drop _ _).symm⟩
    have hsecondNames := names_eq_of_kept hsecond
    have hbNames : b.bindings.map (·.name) = a.bindings.map (·.name) ++ added.map (·.name) := by
      rw [hb, List.map_append, names_eq_of_kept hkept]
    refine ⟨first, second ++ added', by simp [hc], ?_, ?_, ?_⟩
    · exact forall₂_kept_trans hkept hfirst
    · rw [List.map_append, hsecondNames]
      refine hnodup.append hnodup' fun name h h' => ?_
      obtain ⟨d, hd, rfl⟩ := List.mem_map.mp h'
      exact (hadded' d hd).2 (by rw [hbNames]; exact List.mem_append_right _ h)
    · intro d hd
      rcases List.mem_append.mp hd with hd | hd
      · have hmem : d.name ∈ added.map (·.name) := hsecondNames ▸ List.mem_map_of_mem hd
        obtain ⟨e, he, hname⟩ := List.mem_map.mp hmem
        exact hname ▸ hadded e he
      · obtain ⟨hname, hnot⟩ := hadded' d hd
        refine ⟨hname, fun h => hnot ?_⟩
        rw [hbNames]
        exact List.mem_append_left _ h

theorem mono
    {names' : String → Prop} {a b : Scope}
    (h : a.Kept names b)
    (hnames : ∀ name, names name → names' name) :
    a.Kept names' b where
  parent := h.parent
  bindings := by
    obtain ⟨kept, added, hb, hkept, hnodup, hadded⟩ := h.bindings
    exact ⟨kept, added, hb, hkept.imp fun _ _ hk => hk.mono hnames, hnodup,
      fun b hb => ⟨hnames _ (hadded b hb).1, (hadded b hb).2⟩⟩

/-- A name that is bound stays bound. -/
theorem find?_isSome
    {a b : Scope} {name : String}
    (h : a.Kept names b)
    (hname : (a.find? name).isSome = true) :
    (b.find? name).isSome = true := by
  obtain ⟨kept, added, hb, hkept, -, -⟩ := h.bindings
  obtain ⟨c, hc, hcname⟩ := List.find?_isSome.mp hname
  have hmem : c.name ∈ kept.map (·.name) := names_eq_of_kept hkept ▸ List.mem_map_of_mem hc
  obtain ⟨d, hd, hdname⟩ := List.mem_map.mp hmem
  refine List.find?_isSome.mpr ⟨d, ?_, by simpa [hdname] using hcname⟩
  rw [hb]
  exact List.mem_append_left _ hd

/-- A binding that is placed where a binding was that it keeps. -/
theorem forall₂_place
    {b c : Binding} {bindings : List Binding}
    (hkept : c.Kept names b)
    (h : bindings.find? (·.name == b.name) = some c) :
    List.Forall₂ (Binding.Kept names) bindings (place b bindings) := by
  induction bindings with
  | nil => cases h
  | cons old rest ih =>
      unfold place
      split
      · next hname =>
          rw [List.find?_cons_of_pos (by simpa using hname)] at h
          cases h
          exact .cons hkept (List.forall₂_same.mpr fun d _ => .refl d)
      · next hname =>
          rw [List.find?_cons_of_neg (by simpa using hname)] at h
          exact .cons (.refl old) (ih h)

/-- A binding that is placed where no binding has its name comes last. -/
theorem place_of_find?_eq_none
    {b : Binding} {bindings : List Binding}
    (h : bindings.find? (·.name == b.name) = none) :
    place b bindings = bindings ++ [b] := by
  induction bindings with
  | nil => rfl
  | cons old rest ih =>
      have hold : old.name ≠ b.name := by
        intro hname
        simp [hname] at h
      rw [List.find?_cons_of_neg (by simpa using hold)] at h
      simp [place, hold, ih h]

/-- A binding is placed where a binding was that it keeps. -/
theorem of_place
    {scope : Scope} {b c : Binding}
    (hfind : scope.find? b.name = some c)
    (hkept : c.Kept names b) :
    scope.Kept names (scope.define b) where
  parent := rfl
  bindings := ⟨place b scope.bindings, [], by simp [Scope.define], forall₂_place hkept hfind,
    by simp, by simp⟩

/-- One of the names is bound. -/
theorem define (scope : Scope) {b : Binding} (hb : names b.name) :
    scope.Kept names (scope.define b) := by
  cases hfind : scope.find? b.name with
  | some c =>
      have hname : c.name = b.name := by simpa using List.find?_some hfind
      exact of_place hfind ⟨hname.symm, .inl (hname ▸ hb)⟩
  | none =>
      refine ⟨rfl, scope.bindings, [b], place_of_find?_eq_none hfind, ?_, by simp, ?_⟩
      · exact List.forall₂_same.mpr fun c _ => .refl c
      · simpa [hb] using List.find?_eq_none.mp hfind

end Scope.Kept

/-- Every scope from before is kept, but for the names that may be bound anew there. -/
structure Scopes.Kept (names : ScopeId → String → Prop) (old new : Scopes) : Prop where
  size_le : old.all.size ≤ new.all.size
  scope : ∀ id < old.all.size, (old.get id).Kept (names id) (new.get id)

namespace Scopes.Kept

variable {names : ScopeId → String → Prop} {old new : Scopes}

theorem refl (scopes : Scopes) : scopes.Kept names scopes :=
  ⟨Nat.le_refl _, fun _ _ => .refl _⟩

theorem trans {a b c : Scopes} (hab : a.Kept names b) (hbc : b.Kept names c) : a.Kept names c where
  size_le := Nat.le_trans hab.size_le hbc.size_le
  scope id h := (hab.scope id h).trans (hbc.scope id (Nat.lt_of_lt_of_le h hab.size_le))

/-- What may happen in scopes that were not there before does not matter. -/
theorem mono
    {names' : ScopeId → String → Prop}
    (h : old.Kept names new)
    (hnames : ∀ id < old.all.size, ∀ name, names id name → names' id name) :
    old.Kept names' new where
  size_le := h.size_le
  scope id hid := (h.scope id hid).mono (hnames id hid)

theorem create (scopes : Scopes) (scope : Scope) :
    scopes.Kept names (scopes.create scope).1 where
  size_le := by simp
  scope id h := by
    rw [get_create_of_ne scope (Nat.ne_of_lt h)]
    exact .refl _

/-- A change of one scope that keeps it. -/
theorem define_of_kept
    (scopes : Scopes)
    {id : ScopeId} {b : Binding}
    (h : (scopes.get id).Kept (names id) ((scopes.get id).define b)) :
    scopes.Kept names (scopes.define id b) where
  size_le := by simp
  scope j hj := by
    by_cases hid : j = id
    · subst hid
      rwa [get_define_self b hj]
    · rw [get_define_of_ne b hid]
      exact .refl _

theorem define (scopes : Scopes) {id : ScopeId} {b : Binding} (hb : names id b.name) :
    scopes.Kept names (scopes.define id b) :=
  define_of_kept scopes (.define _ hb)

/-- An assignment changes no more than the value of a variable. -/
theorem assign (scopes : Scopes) (id : ScopeId) (name : String) (v : Value) :
    scopes.Kept names (scopes.assign id name v).2 := by
  unfold Scopes.assign
  split
  · exact .refl _
  · next owner b hlookup =>
      have hfind := find?_of_lookup? hlookup
      have hname : b.name = name := by simpa using List.find?_some hfind
      split
      · exact .refl _
      · next hconst =>
          refine define_of_kept scopes (.of_place (c := b) (by simpa [hname] using hfind) ?_)
          exact ⟨rfl, .inr ⟨rfl, fun h => absurd h hconst⟩⟩

end Scopes.Kept

end Lox
