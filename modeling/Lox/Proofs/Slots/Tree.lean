import Lox.Fault
import Mathlib.Data.List.Basic

/-!
# Trees of slots

What scopes are about, without any way to represent them. A scope has slots under names, and a slot is
where values are stored one after the other; the last one counts. A slot is born when a name is
defined or a scope is copied, and it belongs to one scope and one name for good. A name resolves to
the slot of the innermost scope that has one.
-/

namespace Lox

/-- A place for the values of a name. A constant slot is only stored to once. -/
structure Slot where
  birth : Nat
  name : String
  isConst : Bool
deriving DecidableEq

/-- A slot like another one, born at the given time. -/
def Slot.renewed (slot : Slot) (time : Nat) : Slot :=
  { slot with birth := time }

/-- The slots of one scope, and the scope around it. -/
structure SlotScope where
  parent : Option ScopeId
  slots : List Slot

/-- Scopes, numbered in the order of their creation, and all that was ever stored in their slots, the
last store first. The time counts how often slots were born. -/
structure SlotTree where
  time : Nat
  scopes : List SlotScope
  stores : List (Slot × Value)

namespace SlotTree

/-- No scope. -/
def empty : SlotTree := ⟨0, [], []⟩

/-- The scope with a number; there is nothing in a scope that does not exist. -/
def scope (tree : SlotTree) (id : ScopeId) : SlotScope :=
  tree.scopes[id]?.getD ⟨none, []⟩

section Resolution

/-- The scope itself has the slot under the name. -/
def Owns (tree : SlotTree) (id : ScopeId) (name : String) (slot : Slot) : Prop :=
  (tree.scope id).slots.find? (·.name = name) = some slot

/-- The way outward from a scope reaches the target before any other scope that has the name. -/
inductive Reaches (tree : SlotTree) (name : String) (target : ScopeId) : ScopeId → Prop
  | here : Reaches tree name target target
  | outward
      {id parent : ScopeId}
      (hnone : ∀ slot, ¬tree.Owns id name slot)
      (hparent : (tree.scope id).parent = some parent)
      (hrest : Reaches tree name target parent) :
      Reaches tree name target id

/-- The name resolves to the slot of the innermost scope that has one. -/
def Resolves (tree : SlotTree) (id : ScopeId) (name : String) (slot : Slot) : Prop :=
  ∃ owner, tree.Reaches name owner id ∧ tree.Owns owner name slot

/-- The value that was stored last. -/
def latest? (tree : SlotTree) (slot : Slot) : Option Value :=
  tree.stores.lookup slot

/-- What reading a name yields: the value stored last in the slot that it resolves to. -/
inductive Reads (tree : SlotTree) (id : ScopeId) (name : String) : Except Fault Value → Prop
  | stored
      {slot : Slot}
      {v : Value}
      (hslot : tree.Resolves id name slot)
      (hvalue : tree.latest? slot = some v) :
      Reads tree id name (.ok v)
  | undefined
      (hnone : ∀ slot, ¬tree.Resolves id name slot) :
      Reads tree id name (.error (.undefinedVariable name))

end Resolution

section Operations

/-- One more scope. -/
def add (tree : SlotTree) (scope : SlotScope) : SlotTree :=
  { tree with scopes := tree.scopes ++ [scope] }

/-- A value is stored in a slot. -/
def store (tree : SlotTree) (slot : Slot) (v : Value) : SlotTree :=
  { tree with stores := (slot, v) :: tree.stores }

/-- A new slot takes the place of the one that the scope has under the name. -/
def define
    (tree : SlotTree)
    (id : ScopeId)
    (name : String)
    (v : Value)
    (isConst : Bool) :
    SlotTree :=
  let slot : Slot := ⟨tree.time, name, isConst⟩
  { time := tree.time + 1
    scopes := tree.scopes.modify id fun scope =>
      { scope with slots := slot :: scope.slots.filter (·.name ≠ name) }
    stores := (slot, v) :: tree.stores }

/-- A new scope with the same parent and a new slot for each slot, in which the same value is
stored. -/
def copy (tree : SlotTree) (id : ScopeId) : SlotTree :=
  let scope := tree.scope id
  { tree.add { scope with slots := scope.slots.map (·.renewed tree.time) } with
    time := tree.time + 1
    stores := scope.slots.filterMap (fun slot =>
      (tree.latest? slot).map fun v => (slot.renewed tree.time, v)) ++ tree.stores }

end Operations

section Chains

variable {tree other : SlotTree} {id id' owner owner' parent : ScopeId} {name name' : String}
  {slot slot' : Slot}

theorem Owns.name_eq (h : tree.Owns id name slot) : slot.name = name := by
  simpa using List.find?_some h

theorem Owns.unique (h : tree.Owns id name slot) (h' : tree.Owns id name slot') : slot = slot' :=
  Option.some.inj (h.symm.trans h')

theorem Owns.resolves (h : tree.Owns id name slot) : tree.Resolves id name slot :=
  ⟨id, .here, h⟩

theorem Resolves.outward
    (h : tree.Resolves parent name slot)
    (hnone : ∀ slot, ¬tree.Owns id name slot)
    (hparent : (tree.scope id).parent = some parent) :
    tree.Resolves id name slot := by
  obtain ⟨owner, hreaches, howns⟩ := h
  exact ⟨owner, .outward hnone hparent hreaches, howns⟩

/-- Either the scope itself has the slot, or the name resolves to it in the scope around. -/
theorem Resolves.cases (h : tree.Resolves id name slot) :
    tree.Owns id name slot ∨
      (∀ slot, ¬tree.Owns id name slot) ∧
        ∃ parent, (tree.scope id).parent = some parent ∧ tree.Resolves parent name slot := by
  obtain ⟨owner, hreaches, howns⟩ := h
  cases hreaches with
  | here => exact .inl howns
  | outward hnone hparent hrest => exact .inr ⟨hnone, _, hparent, owner, hrest, howns⟩

/-- A name resolves to one slot only. -/
theorem Reaches.resolves_unique
    (hreaches : tree.Reaches name owner id)
    (howns : tree.Owns owner name slot)
    (h : tree.Resolves id name slot') :
    slot = slot' := by
  induction hreaches with
  | here =>
      rcases h.cases with howns' | ⟨hnone, -⟩
      · exact howns.unique howns'
      · exact absurd howns (hnone slot)
  | outward hnone hparent hrest ih =>
      rcases h.cases with howns' | ⟨-, parent, hparent', hresolves⟩
      · exact absurd howns' (hnone slot')
      · obtain rfl := Option.some.inj (hparent.symm.trans hparent')
        exact ih hresolves

theorem Resolves.unique
    (h : tree.Resolves id name slot)
    (h' : tree.Resolves id name slot') :
    slot = slot' := by
  obtain ⟨owner, hreaches, howns⟩ := h
  exact hreaches.resolves_unique howns h'

/-- Reading a name yields one answer only. -/
theorem Reads.unique
    {r r' : Except Fault Value}
    (h : tree.Reads id name r)
    (h' : tree.Reads id name r') :
    r = r' := by
  cases h with
  | stored hslot hvalue =>
      cases h' with
      | stored hslot' hvalue' =>
          obtain rfl := hslot.unique hslot'
          rw [Option.some.inj (hvalue.symm.trans hvalue')]
      | undefined hnone => exact absurd hslot (hnone _)
  | undefined hnone =>
      cases h' with
      | stored hslot' hvalue' => exact absurd hslot' (hnone _)
      | undefined => rfl

end Chains

section Updates

variable {tree : SlotTree} {id id' : ScopeId} {name name' : String} {slot : Slot} {v : Value}
  {isConst : Bool}

theorem scope_add (added : SlotScope) :
    (tree.add added).scope id = if id = tree.scopes.length then added else tree.scope id := by
  unfold scope add
  split
  · next heq => simp [heq]
  · next hne =>
      rcases Nat.lt_or_gt_of_ne hne with hlt | hgt
      · rw [List.getElem?_append_left hlt]
      · rw [List.getElem?_eq_none (by simp; omega), List.getElem?_eq_none (by omega)]

theorem not_owns_of_length_le (h : tree.scopes.length ≤ id) : ¬tree.Owns id name slot := by
  rw [Owns, scope, List.getElem?_eq_none h]
  exact nofun

theorem Owns.lt_length (h : tree.Owns id name slot) : id < tree.scopes.length :=
  Nat.lt_of_not_le fun hle => not_owns_of_length_le hle h

/-- A scope without slots changes nothing about the slots. -/
theorem owns_add_nil (parent : Option ScopeId) :
    (tree.add ⟨parent, []⟩).Owns id name slot ↔ tree.Owns id name slot := by
  rw [Owns, scope_add]
  split
  · next heq => exact iff_of_false nofun (not_owns_of_length_le (Nat.le_of_eq heq.symm))
  · rfl

@[simp] theorem parent_store : ((tree.store slot v).scope id).parent = (tree.scope id).parent :=
  rfl

theorem owns_store {slot' : Slot} :
    (tree.store slot v).Owns id name slot' ↔ tree.Owns id name slot' :=
  Iff.rfl

theorem scope_define :
    (tree.define id name v isConst).scope id' =
      if id' = id ∧ id < tree.scopes.length then
        { tree.scope id with
          slots := ⟨tree.time, name, isConst⟩ ::
            (tree.scope id).slots.filter (·.name ≠ name) }
      else
        tree.scope id' := by
  unfold scope define
  rw [List.getElem?_modify]
  by_cases heq : id = id'
  · subst heq
    by_cases hlt : id < tree.scopes.length
    · simp [hlt]
    · simp [hlt]
  · simp [heq, Ne.symm heq]

@[simp] theorem parent_define :
    ((tree.define id name v isConst).scope id').parent = (tree.scope id').parent := by
  rw [scope_define]
  split
  · next h => rw [h.1]
  · rfl

theorem find?_filter_of_ne (hne : name' ≠ name) (slots : List Slot) :
    (slots.filter (·.name ≠ name)).find? (·.name = name') = slots.find? (·.name = name') := by
  induction slots with
  | nil => rfl
  | cons first rest ih =>
      by_cases hfirst : first.name = name
      · have hother : first.name ≠ name' := fun h => hne (h.symm.trans hfirst)
        rw [List.filter_cons_of_neg (by simpa using hfirst), ih,
          List.find?_cons_of_neg (by simpa using hother)]
      · rw [List.filter_cons_of_pos (by simpa using hfirst), List.find?_cons, List.find?_cons, ih]

/-- After a definition the scope has the new slot under the name, and everything else as before. -/
theorem owns_define (hid : id < tree.scopes.length) :
    (tree.define id name v isConst).Owns id' name' slot ↔
      if id' = id ∧ name' = name then
        slot = ⟨tree.time, name, isConst⟩
      else
        tree.Owns id' name' slot := by
  rw [Owns, scope_define]
  by_cases hscope : id' = id
  · subst hscope
    by_cases hname : name' = name
    · subst hname
      simp [hid, eq_comm]
    · simp only [hid, and_self, if_true, hname, and_false, if_false]
      rw [List.find?_cons_of_neg (by simpa using Ne.symm hname), find?_filter_of_ne hname]
      rfl
  · simp [hscope, Owns]

theorem parent_copy :
    ((tree.copy id).scope id').parent =
      if id' = tree.scopes.length then (tree.scope id).parent else (tree.scope id').parent := by
  have hscope : (tree.copy id).scope id' =
      (tree.add { tree.scope id with
        slots := (tree.scope id).slots.map (·.renewed tree.time) }).scope id' :=
    rfl
  rw [hscope, scope_add]
  split <;> rfl

/-- After a copy the new scope has a new slot for each slot, and everything else is as before. -/
theorem owns_copy :
    (tree.copy id).Owns id' name slot ↔
      if id' = tree.scopes.length then
        ∃ old, tree.Owns id name old ∧ slot = old.renewed tree.time
      else
        tree.Owns id' name slot := by
  have hscope : (tree.copy id).scope id' =
      (tree.add { tree.scope id with
        slots := (tree.scope id).slots.map (·.renewed tree.time) }).scope id' :=
    rfl
  rw [Owns, hscope, scope_add]
  split
  · have hname : (fun s : Slot => decide (s.name = name)) ∘ (·.renewed tree.time) =
        fun s : Slot => decide (s.name = name) :=
      rfl
    rw [List.find?_map, hname, Option.map_eq_some_iff]
    exact exists_congr fun old => and_congr_right fun _ => eq_comm
  · rfl

end Updates

section Stores

variable {tree : SlotTree} {id : ScopeId} {name : String} {slot slot' : Slot} {v : Value}
  {isConst : Bool}

theorem latest?_store_self : (tree.store slot v).latest? slot = some v :=
  List.lookup_cons_self

theorem latest?_store_of_ne (h : slot' ≠ slot) :
    (tree.store slot v).latest? slot' = tree.latest? slot' := by
  have hne : (slot' == slot) = false := by simpa using h
  simp [latest?, store, List.lookup_cons, hne]

theorem latest?_define_self :
    (tree.define id name v isConst).latest? ⟨tree.time, name, isConst⟩ = some v :=
  List.lookup_cons_self

theorem latest?_define_of_ne (h : slot.birth ≠ tree.time) :
    (tree.define id name v isConst).latest? slot = tree.latest? slot :=
  latest?_store_of_ne fun heq => h (congrArg Slot.birth heq)

/-- What was stored in slots that were born at another time stays the same. -/
theorem lookup_renewed_of_ne
    (read : Slot → Option Value)
    {time : Nat}
    (h : slot.birth ≠ time)
    (slots : List Slot)
    (stores : List (Slot × Value)) :
    (slots.filterMap (fun s => (read s).map fun v => (s.renewed time, v)) ++ stores).lookup slot =
      stores.lookup slot := by
  induction slots with
  | nil => rfl
  | cons first rest ih =>
      rw [List.filterMap_cons]
      cases read first with
      | none => exact ih
      | some v =>
          have hne : (slot == first.renewed time) = false := by
            rw [beq_eq_false_iff_ne]
            exact fun heq => h (congrArg Slot.birth heq)
          simpa [List.lookup_cons, hne] using ih

/-- The first slot under a name is read for the slot that is born of it. -/
theorem lookup_renewed
    (read : Slot → Option Value)
    (time : Nat)
    {slots : List Slot}
    (hfind : slots.find? (·.name = name) = some slot)
    (hread : read slot = some v)
    (stores : List (Slot × Value)) :
    (slots.filterMap (fun s => (read s).map fun v => (s.renewed time, v)) ++ stores).lookup
      (slot.renewed time) = some v := by
  have hname : slot.name = name := by simpa using List.find?_some hfind
  induction slots with
  | nil => cases hfind
  | cons first rest ih =>
      by_cases hfirst : first.name = name
      · rw [List.find?_cons_of_pos (by simpa using hfirst)] at hfind
        obtain rfl := Option.some.inj hfind
        simp [hread]
      · rw [List.find?_cons_of_neg (by simpa using hfirst)] at hfind
        rw [List.filterMap_cons]
        cases read first with
        | none => exact ih hfind
        | some w =>
            have hne : (slot.renewed time == first.renewed time) = false := by
              rw [beq_eq_false_iff_ne]
              exact fun heq => hfirst ((congrArg Slot.name heq).symm.trans hname)
            simpa [List.lookup_cons, hne] using ih hfind

theorem latest?_copy_of_ne (h : slot.birth ≠ tree.time) :
    (tree.copy id).latest? slot = tree.latest? slot :=
  lookup_renewed_of_ne tree.latest? h (tree.scope id).slots tree.stores

/-- In a slot that was born of another one there is what was stored in that one. -/
theorem latest?_copy_renewed
    (howns : tree.Owns id name slot)
    (hstored : tree.latest? slot = some v) :
    (tree.copy id).latest? (slot.renewed tree.time) = some v :=
  lookup_renewed tree.latest? tree.time howns hstored tree.stores

end Stores

section Soundness

/-- The scope around each scope was created before it. Every slot was born before now, belongs to one
scope only and has something stored in it. -/
structure Sound (tree : SlotTree) : Prop where
  ordered : ∀ id parent, (tree.scope id).parent = some parent → parent < id
  birth_lt : ∀ id name slot, tree.Owns id name slot → slot.birth < tree.time
  unaliased : ∀ id id' name name' slot,
    tree.Owns id name slot → tree.Owns id' name' slot → id = id'
  stored : ∀ id name slot, tree.Owns id name slot → ∃ v, tree.latest? slot = some v

namespace Sound

variable {tree : SlotTree} {id : ScopeId}

theorem empty : Sound .empty where
  ordered _ _ h := by cases h
  birth_lt _ _ _ h := by cases h
  unaliased _ _ _ _ _ h _ := by cases h
  stored _ _ _ h := by cases h

theorem add
    (h : tree.Sound)
    {parent : Option ScopeId}
    (hparent : ∀ p ∈ parent, p < tree.scopes.length) :
    (tree.add ⟨parent, []⟩).Sound where
  ordered id p hp := by
    rw [scope_add] at hp
    split at hp
    · next heq => exact heq ▸ hparent p hp
    · exact h.ordered id p hp
  birth_lt id name slot hslot := h.birth_lt id name slot (owns_add_nil parent |>.mp hslot)
  unaliased id id' name name' slot hslot hslot' :=
    h.unaliased id id' name name' slot ((owns_add_nil parent).mp hslot)
      ((owns_add_nil parent).mp hslot')
  stored id name slot hslot := h.stored id name slot ((owns_add_nil parent).mp hslot)

theorem store (h : tree.Sound) (slot : Slot) (v : Value) : (tree.store slot v).Sound where
  ordered := h.ordered
  birth_lt := h.birth_lt
  unaliased := h.unaliased
  stored id name slot' hslot := by
    by_cases heq : slot' = slot
    · exact ⟨v, heq ▸ latest?_store_self⟩
    · rw [latest?_store_of_ne heq]
      exact h.stored id name slot' hslot

theorem define
    (h : tree.Sound)
    (hid : id < tree.scopes.length)
    (name : String)
    (v : Value)
    (isConst : Bool) :
    (tree.define id name v isConst).Sound where
  ordered id' p hp := h.ordered id' p (by rwa [parent_define] at hp)
  birth_lt id' name' slot hslot := by
    rw [owns_define hid] at hslot
    split at hslot
    · subst hslot
      exact Nat.lt_succ_self _
    · exact Nat.lt_succ_of_lt (h.birth_lt id' name' slot hslot)
  unaliased id' id'' name' name'' slot hslot hslot' := by
    rw [owns_define hid] at hslot hslot'
    split at hslot <;> split at hslot'
    · next heq heq' => exact heq.1.trans heq'.1.symm
    · subst hslot
      exact absurd (h.birth_lt _ _ _ hslot') (Nat.lt_irrefl _)
    · subst hslot'
      exact absurd (h.birth_lt _ _ _ hslot) (Nat.lt_irrefl _)
    · exact h.unaliased id' id'' name' name'' slot hslot hslot'
  stored id' name' slot hslot := by
    rw [owns_define hid] at hslot
    split at hslot
    · exact ⟨v, hslot ▸ latest?_define_self⟩
    · rw [latest?_define_of_ne (Nat.ne_of_lt (h.birth_lt id' name' slot hslot))]
      exact h.stored id' name' slot hslot

theorem copy
    (h : tree.Sound)
    (hid : id < tree.scopes.length) :
    (tree.copy id).Sound where
  ordered id' p hp := by
    rw [parent_copy] at hp
    split at hp
    · next heq => exact heq ▸ Nat.lt_trans (h.ordered id p hp) hid
    · exact h.ordered id' p hp
  birth_lt id' name slot hslot := by
    rw [owns_copy] at hslot
    split at hslot
    · obtain ⟨old, -, rfl⟩ := hslot
      exact Nat.lt_succ_self _
    · exact Nat.lt_succ_of_lt (h.birth_lt id' name slot hslot)
  unaliased id' id'' name name' slot hslot hslot' := by
    rw [owns_copy] at hslot hslot'
    split at hslot <;> split at hslot'
    · next heq heq' => exact heq.trans heq'.symm
    · obtain ⟨old, -, rfl⟩ := hslot
      exact absurd (h.birth_lt _ _ _ hslot') (Nat.lt_irrefl _)
    · obtain ⟨old, -, rfl⟩ := hslot'
      exact absurd (h.birth_lt _ _ _ hslot) (Nat.lt_irrefl _)
    · exact h.unaliased id' id'' name name' slot hslot hslot'
  stored id' name slot hslot := by
    rw [owns_copy] at hslot
    split at hslot
    · obtain ⟨old, hold, rfl⟩ := hslot
      obtain ⟨v, hv⟩ := h.stored id name old hold
      exact ⟨v, latest?_copy_renewed hold hv⟩
    · rw [latest?_copy_of_ne (Nat.ne_of_lt (h.birth_lt id' name slot hslot))]
      exact h.stored id' name slot hslot

end Sound

end Soundness

section Effects

variable {tree other : SlotTree} {id id' : ScopeId} {name name' : String} {slot : Slot} {v : Value}
  {isConst : Bool}

/-- A name resolves to the same slot in another tree if the scopes on the way have the same slots
under the name there. -/
theorem resolves_congr
    (inside : ScopeId → Prop)
    (hparent : ∀ j, inside j → (other.scope j).parent = (tree.scope j).parent)
    (howns : ∀ j, inside j → ∀ s, other.Owns j name s ↔ tree.Owns j name s)
    (houtward : ∀ j parent, inside j → (∀ s, ¬tree.Owns j name s) →
      (tree.scope j).parent = some parent → inside parent)
    (hid : inside id) :
    other.Resolves id name slot ↔ tree.Resolves id name slot := by
  constructor
  · rintro ⟨owner, hreaches, hslot⟩
    induction hreaches with
    | here => exact ((howns _ hid slot).mp hslot).resolves
    | @outward j parent hnone hlink hrest ih =>
        have hnone' : ∀ s, ¬tree.Owns j name s := fun s hs => hnone s ((howns j hid s).mpr hs)
        rw [hparent j hid] at hlink
        exact (ih (houtward j parent hid hnone' hlink)).outward hnone' hlink
  · rintro ⟨owner, hreaches, hslot⟩
    induction hreaches with
    | here => exact ((howns _ hid slot).mpr hslot).resolves
    | @outward j parent hnone hlink hrest ih =>
        have hnone' : ∀ s, ¬other.Owns j name s := fun s hs => hnone s ((howns j hid s).mp hs)
        exact (ih (houtward j parent hid hnone hlink)).outward hnone'
          ((hparent j hid).trans hlink)

/-- What is stored has no bearing on what names resolve to. -/
theorem resolves_store {slot' : Slot} :
    (tree.store slot v).Resolves id name slot' ↔ tree.Resolves id name slot' :=
  resolves_congr (fun _ => True) (fun _ _ => rfl) (fun _ _ _ => Iff.rfl)
    (fun _ _ _ _ _ => trivial) trivial

/-- A definition is seen where the way outward reaches its scope before another that has the name. -/
theorem resolves_define_of_reaches
    (hid : id < tree.scopes.length)
    (h : tree.Reaches name id id') :
    (tree.define id name v isConst).Resolves id' name ⟨tree.time, name, isConst⟩ := by
  have hown : (tree.define id name v isConst).Owns id name ⟨tree.time, name, isConst⟩ :=
    (owns_define hid).mpr (by simp)
  induction h with
  | here => exact hown.resolves
  | @outward j parent hnone hlink hrest ih =>
      by_cases hj : j = id
      · exact hj ▸ hown.resolves
      · refine ih.outward (fun s hs => hnone s ?_) (parent_define.trans hlink)
        simpa [owns_define hid, hj] using hs

/-- Elsewhere, and for other names, a definition has no bearing on what names resolve to. -/
theorem resolves_define_of_not_reaches
    (hid : id < tree.scopes.length)
    (h : ¬(name' = name ∧ tree.Reaches name id id')) :
    (tree.define id name v isConst).Resolves id' name' slot ↔ tree.Resolves id' name' slot := by
  refine resolves_congr (fun j => ¬(name' = name ∧ tree.Reaches name id j))
    (fun _ _ => parent_define) (fun j hj s => ?_) (fun j parent hj hnone hlink hparent => ?_) h
  · rw [owns_define hid, if_neg]
    rintro ⟨rfl, rfl⟩
    exact hj ⟨rfl, .here⟩
  · obtain ⟨rfl, hreaches⟩ := hparent
    exact hj ⟨rfl, .outward hnone hlink hreaches⟩

/-- In the scopes that were there before, a copy has no bearing on what names resolve to. -/
theorem resolves_copy_of_lt
    (h : tree.Sound)
    (hid : id' < tree.scopes.length) :
    (tree.copy id).Resolves id' name slot ↔ tree.Resolves id' name slot := by
  refine resolves_congr (· < tree.scopes.length) (fun j hj => ?_) (fun j hj s => ?_)
    (fun j parent hj _ hlink => Nat.lt_trans (h.ordered j parent hlink) hj) hid
  · rw [parent_copy, if_neg (Nat.ne_of_lt hj)]
  · rw [owns_copy, if_neg (Nat.ne_of_lt hj)]

/-- A name that the copied scope does not have itself resolves to the same slot in the copy. -/
theorem resolves_copy_of_not_owns
    (h : tree.Sound)
    (hid : id < tree.scopes.length)
    (hnone : ∀ s, ¬tree.Owns id name s) :
    (tree.copy id).Resolves tree.scopes.length name slot ↔ tree.Resolves id name slot := by
  have hnone' : ∀ s, ¬(tree.copy id).Owns tree.scopes.length name s := by
    intro s hs
    rw [owns_copy, if_pos rfl] at hs
    obtain ⟨old, hold, -⟩ := hs
    exact hnone old hold
  have hlink : ((tree.copy id).scope tree.scopes.length).parent = (tree.scope id).parent := by
    rw [parent_copy, if_pos rfl]
  have hlt : ∀ parent, (tree.scope id).parent = some parent → parent < tree.scopes.length :=
    fun parent hparent => Nat.lt_trans (h.ordered id parent hparent) hid
  constructor
  · intro hslot
    rcases hslot.cases with hown | ⟨-, parent, hparent, hrest⟩
    · exact absurd hown (hnone' slot)
    · rw [hlink] at hparent
      exact ((resolves_copy_of_lt h (hlt parent hparent)).mp hrest).outward hnone hparent
  · intro hslot
    rcases hslot.cases with hown | ⟨-, parent, hparent, hrest⟩
    · exact absurd hown (hnone slot)
    · exact ((resolves_copy_of_lt h (hlt parent hparent)).mpr hrest).outward hnone'
        (hlink.trans hparent)

end Effects

section Readings

variable {tree : SlotTree} {id id' : ScopeId} {name name' : String} {slot : Slot} {v : Value}
  {isConst : Bool} {r : Except Fault Value}

/-- A reading of a name that resolves to the same slot, in which the same value was stored last. -/
theorem Reads.congr
    {other : SlotTree}
    (h : tree.Reads id name r)
    (hslot : ∀ slot, other.Resolves id' name slot ↔ tree.Resolves id name slot)
    (hvalue : ∀ slot, tree.Resolves id name slot → other.latest? slot = tree.latest? slot) :
    other.Reads id' name r := by
  cases h with
  | stored hresolves hstored =>
      exact .stored ((hslot _).mpr hresolves) ((hvalue _ hresolves).trans hstored)
  | undefined hnone => exact .undefined fun slot hresolves => hnone slot ((hslot slot).mp hresolves)

theorem Sound.birth_ne
    (h : tree.Sound)
    (hslot : tree.Resolves id name slot) :
    slot.birth ≠ tree.time := by
  obtain ⟨owner, -, howns⟩ := hslot
  exact Nat.ne_of_lt (h.birth_lt owner name slot howns)

theorem reads_store_self (hslot : tree.Resolves id name slot) :
    (tree.store slot v).Reads id name (.ok v) :=
  .stored (resolves_store.mpr hslot) latest?_store_self

theorem Reads.store
    (h : tree.Reads id name r)
    (hslot : ¬tree.Resolves id name slot) :
    (tree.store slot v).Reads id name r := by
  refine h.congr (fun _ => resolves_store) fun slot' hslot' => latest?_store_of_ne ?_
  rintro rfl
  exact hslot hslot'

theorem reads_define_self
    (hid : id < tree.scopes.length)
    (hreaches : tree.Reaches name id id') :
    (tree.define id name v isConst).Reads id' name (.ok v) :=
  .stored (resolves_define_of_reaches hid hreaches) latest?_define_self

theorem Reads.define
    (h : tree.Reads id' name' r)
    (hsound : tree.Sound)
    (hid : id < tree.scopes.length)
    (hother : ¬(name' = name ∧ tree.Reaches name id id')) :
    (tree.define id name v isConst).Reads id' name' r :=
  h.congr (fun _ => resolves_define_of_not_reaches hid hother) fun _ hslot =>
    latest?_define_of_ne (hsound.birth_ne hslot)

theorem Reads.copy_of_lt
    (h : tree.Reads id' name r)
    (hsound : tree.Sound)
    (hid' : id' < tree.scopes.length) :
    (tree.copy id).Reads id' name r :=
  h.congr (fun _ => resolves_copy_of_lt hsound hid') fun _ hslot =>
    latest?_copy_of_ne (hsound.birth_ne hslot)

/-- In a copy every name reads as it does in the scope that was copied. -/
theorem Reads.copy
    (h : tree.Reads id name r)
    (hsound : tree.Sound)
    (hid : id < tree.scopes.length) :
    (tree.copy id).Reads tree.scopes.length name r := by
  by_cases hown : ∃ slot, tree.Owns id name slot
  · obtain ⟨slot, howns⟩ := hown
    cases h with
    | stored hslot hvalue =>
        obtain rfl := howns.resolves.unique hslot
        have hnew : (tree.copy id).Owns tree.scopes.length name (slot.renewed tree.time) := by
          rw [owns_copy, if_pos rfl]
          exact ⟨slot, howns, rfl⟩
        exact .stored hnew.resolves (latest?_copy_renewed howns hvalue)
    | undefined hnone => exact absurd howns.resolves (hnone slot)
  · exact h.congr (fun _ => resolves_copy_of_not_owns hsound hid (not_exists.mp hown))
      fun _ hslot => latest?_copy_of_ne (hsound.birth_ne hslot)

end Readings

end SlotTree

end Lox
