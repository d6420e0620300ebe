import Lox.Proofs.Scopes
import Lox.Proofs.Slots.Tree

/-!
# Scopes are trees of slots

Whatever is done with scopes, they go on to realize a tree of slots (`Scopes.Realizes`): each scope
has the bindings of its slots, with the values that were stored there last. So all answers are those
of the tree, and an operation has exactly the effect on every name in every scope that it has there
(`Scopes.refine_slots`).
-/

namespace Lox

/-- What can be done with scopes, which are named by the order of their creation. -/
inductive ScopeOperation
  | root
  | child (parent : ScopeId)
  | define (scope : ScopeId) (name : String) (v : Value) (isConst : Bool)
  | assign (scope : ScopeId) (name : String) (v : Value)
  | get (scope : ScopeId) (name : String)
  | copy (scope : ScopeId)

/-- What an operation answers: the scope that it has created, nothing, or the value of a name. -/
inductive ScopeAnswer
  | created (id : ScopeId)
  | done
  | value (v : Value)
deriving DecidableEq

namespace ScopeOperation

/-- Carry out an operation. -/
def apply (scopes : Scopes) : ScopeOperation → Attempt Scopes ScopeAnswer
  | root =>
      let (later, id) := scopes.create ⟨none, []⟩
      (.ok (.created id), later)
  | child parent =>
      let (later, id) := scopes.create ⟨some parent, []⟩
      (.ok (.created id), later)
  | define id name v isConst => (.ok .done, scopes.define id ⟨name, v, isConst⟩)
  | assign id name v =>
      let (answer, later) := scopes.assign id name v
      (answer.map fun _ => .done, later)
  | get id name => ((scopes.value id name).map .value, scopes)
  | copy id =>
      let (later, new) := scopes.copy id
      (.ok (.created new), later)

/-- Carry out operations one after the other, whether they fail or not. -/
def run : Scopes → List ScopeOperation → List (Except Fault ScopeAnswer) × Scopes
  | scopes, [] => ([], scopes)
  | scopes, op :: ops =>
      let (answer, later) := op.apply scopes
      let (answers, final) := run later ops
      (answer :: answers, final)

/-- The scopes that the operation names are among the first `count`. -/
def Names (count : Nat) : ScopeOperation → Prop
  | root => True
  | child parent => parent < count
  | define id _ _ _ => id < count
  | assign id _ _ => id < count
  | get id _ => id < count
  | copy id => id < count

instance (count : Nat) (op : ScopeOperation) : Decidable (op.Names count) := by
  cases op <;> unfold Names <;> infer_instance

/-- The number of scopes that the operation creates. -/
def created : ScopeOperation → Nat
  | root => 1
  | child _ => 1
  | copy _ => 1
  | _ => 0

/-- Each operation names only scopes that there are by then. -/
def AllName : Nat → List ScopeOperation → Prop
  | _, [] => True
  | count, op :: ops => op.Names count ∧ AllName (count + op.created) ops

instance decidableAllName :
    (count : Nat) → (ops : List ScopeOperation) → Decidable (AllName count ops)
  | _, [] => inferInstanceAs (Decidable True)
  | count, op :: ops =>
      have := decidableAllName (count + op.created) ops
      inferInstanceAs (Decidable (_ ∧ _))

end ScopeOperation

namespace SlotTree

/-- What an operation answers, and the tree afterwards. -/
inductive Step (tree : SlotTree) : ScopeOperation → Except Fault ScopeAnswer → SlotTree → Prop
  | root : Step tree .root (.ok (.created tree.scopes.length)) (tree.add ⟨none, []⟩)
  | child
      {parent : ScopeId}
      (hparent : parent < tree.scopes.length) :
      Step tree (.child parent) (.ok (.created tree.scopes.length)) (tree.add ⟨some parent, []⟩)
  | define
      {id : ScopeId}
      {name : String}
      {v : Value}
      {isConst : Bool}
      (hid : id < tree.scopes.length) :
      Step tree (.define id name v isConst) (.ok .done) (tree.define id name v isConst)
  | assign
      {id : ScopeId}
      {name : String}
      {v : Value}
      {slot : Slot}
      (hslot : tree.Resolves id name slot)
      (hvariable : slot.isConst = false) :
      Step tree (.assign id name v) (.ok .done) (tree.store slot v)
  | assign_constant
      {id : ScopeId}
      {name : String}
      {v : Value}
      {slot : Slot}
      (hslot : tree.Resolves id name slot)
      (hconst : slot.isConst = true) :
      Step tree (.assign id name v) (.error (.assignmentToConstant name)) tree
  | assign_undefined
      {id : ScopeId}
      {name : String}
      {v : Value}
      (hnone : ∀ slot, ¬tree.Resolves id name slot) :
      Step tree (.assign id name v) (.error (.undefinedVariable name)) tree
  | get
      {id : ScopeId}
      {name : String}
      {r : Except Fault Value}
      (hreads : tree.Reads id name r) :
      Step tree (.get id name) (r.map .value) tree
  | copy
      {id : ScopeId}
      (hid : id < tree.scopes.length) :
      Step tree (.copy id) (.ok (.created tree.scopes.length)) (tree.copy id)

/-- What operations answer one after the other, and the tree in the end. -/
inductive Steps :
    SlotTree → List ScopeOperation → List (Except Fault ScopeAnswer) → SlotTree → Prop
  | nil
      {tree : SlotTree} :
      Steps tree [] [] tree
  | cons
      {tree next final : SlotTree}
      {op : ScopeOperation}
      {ops : List ScopeOperation}
      {answer : Except Fault ScopeAnswer}
      {answers : List (Except Fault ScopeAnswer)}
      (hstep : tree.Step op answer next)
      (hrest : Steps next ops answers final) :
      Steps tree (op :: ops) (answer :: answers) final

variable {tree next next' final final' : SlotTree} {op : ScopeOperation}
  {ops : List ScopeOperation}

/-- An operation has one outcome only. -/
theorem Step.unique
    {answer answer' : Except Fault ScopeAnswer}
    (h : tree.Step op answer next)
    (h' : tree.Step op answer' next') :
    answer = answer' ∧ next = next' := by
  cases h with
  | root => cases h'; exact ⟨rfl, rfl⟩
  | child => cases h'; exact ⟨rfl, rfl⟩
  | define => cases h'; exact ⟨rfl, rfl⟩
  | assign hslot hvariable =>
      cases h' with
      | assign hslot' =>
          obtain rfl := hslot.unique hslot'
          exact ⟨rfl, rfl⟩
      | assign_constant hslot' hconst =>
          obtain rfl := hslot.unique hslot'
          rw [hvariable] at hconst
          cases hconst
      | assign_undefined hnone => exact absurd hslot (hnone _)
  | assign_constant hslot hconst =>
      cases h' with
      | assign hslot' hvariable =>
          obtain rfl := hslot.unique hslot'
          rw [hconst] at hvariable
          cases hvariable
      | assign_constant => exact ⟨rfl, rfl⟩
      | assign_undefined hnone => exact absurd hslot (hnone _)
  | assign_undefined hnone =>
      cases h' with
      | assign hslot' => exact absurd hslot' (hnone _)
      | assign_constant hslot' => exact absurd hslot' (hnone _)
      | assign_undefined => exact ⟨rfl, rfl⟩
  | get hreads =>
      cases h' with
      | get hreads' => exact ⟨by rw [hreads.unique hreads'], rfl⟩
  | copy => cases h'; exact ⟨rfl, rfl⟩

theorem Steps.unique
    {answers answers' : List (Except Fault ScopeAnswer)}
    (h : Steps tree ops answers final)
    (h' : Steps tree ops answers' final') :
    answers = answers' ∧ final = final' := by
  induction h generalizing answers' final' with
  | nil => cases h'; exact ⟨rfl, rfl⟩
  | cons hstep hrest ih =>
      cases h' with
      | cons hstep' hrest' =>
          obtain ⟨rfl, rfl⟩ := hstep.unique hstep'
          obtain ⟨rfl, rfl⟩ := ih hrest'
          exact ⟨rfl, rfl⟩

end SlotTree

namespace Scopes

/-- The scopes have the bindings of the slots of the tree, with the values stored there last. -/
structure Realizes (scopes : Scopes) (tree : SlotTree) : Prop where
  sound : tree.Sound
  size : scopes.all.size = tree.scopes.length
  parent : ∀ id, (scopes.get id).parent = (tree.scope id).parent
  found : ∀ id name slot v, tree.Owns id name slot → tree.latest? slot = some v →
    (scopes.get id).find? name = some ⟨name, v, slot.isConst⟩
  missing : ∀ id name, (∀ slot, ¬tree.Owns id name slot) → (scopes.get id).find? name = none

/-- How operations on the scopes show in every name in every scope. -/
structure Accords (scopes : Scopes) (tree : SlotTree) : Prop where
  unaliased : ∀ id id' name name' slot,
    tree.Owns id name slot → tree.Owns id' name' slot → id = id' ∧ name = name'
  /-- A name has the value that was stored last in the slot that it resolves to. -/
  get : ∀ id name, tree.Reads id name (scopes.value id name)
  /-- An assignment shows exactly where a name resolves to the same slot. -/
  assign : ∀ id name slot v, tree.Resolves id name slot → slot.isConst = false →
    ∃ later, scopes.assign id name v = (.ok (), later) ∧ later.Realizes (tree.store slot v) ∧
      ∀ id' name',
        (tree.Resolves id' name' slot → later.value id' name' = .ok v) ∧
        (¬tree.Resolves id' name' slot → later.value id' name' = scopes.value id' name')
  assign_constant : ∀ id name slot v, tree.Resolves id name slot → slot.isConst = true →
    scopes.assign id name v = (.error (.assignmentToConstant name), scopes)
  assign_undefined : ∀ id name v, (∀ slot, ¬tree.Resolves id name slot) →
    scopes.assign id name v = (.error (.undefinedVariable name), scopes)
  /-- A definition shows exactly where the way outward reaches its scope before another that has the
  name. -/
  define : ∀ id < scopes.all.size, ∀ b : Binding,
    (scopes.define id b).Realizes (tree.define id b.name b.value b.isConst) ∧
      ∀ id' name,
        (name = b.name ∧ tree.Reaches name id id' →
          (scopes.define id b).value id' name = .ok b.value) ∧
        (¬(name = b.name ∧ tree.Reaches name id id') →
          (scopes.define id b).value id' name = scopes.value id' name ∧
            ∀ slot, (tree.define id b.name b.value b.isConst).Resolves id' name slot ↔
              tree.Resolves id' name slot)
  /-- A copy has the same values under all names, but none of the slots of the scope itself. -/
  copy : ∀ id < scopes.all.size, ∃ later, scopes.copy id = (later, scopes.all.size) ∧
    later.Realizes (tree.copy id) ∧
    (∀ name, later.value scopes.all.size name = scopes.value id name) ∧
    (∀ id' < scopes.all.size, ∀ name, later.value id' name = scopes.value id' name) ∧
    (∀ name slot, tree.Owns id name slot →
      ∃ new, (tree.copy id).Owns scopes.all.size name new ∧ new.isConst = slot.isConst ∧
        ∀ id' name', ¬tree.Owns id' name' new) ∧
    ∀ name, (∀ slot, ¬tree.Owns id name slot) →
      ∀ slot, (tree.copy id).Resolves scopes.all.size name slot ↔ tree.Resolves id name slot

namespace Realizes

variable {scopes : Scopes} {tree : SlotTree} {id owner : ScopeId} {name : String} {slot : Slot}
  {v : Value}

theorem empty : Realizes .empty .empty where
  sound := .empty
  size := rfl
  parent _ := rfl
  found _ _ _ _ h _ := by cases h
  missing _ _ _ := rfl

section Lookup

theorem lookup?_eq_some
    (h : scopes.Realizes tree)
    (hreaches : tree.Reaches name owner id)
    (hslot : tree.Owns owner name slot)
    (hvalue : tree.latest? slot = some v) :
    scopes.lookup? id name = some (owner, ⟨name, v, slot.isConst⟩) := by
  induction hreaches with
  | here => exact lookup?_of_found (h.found owner name slot v hslot hvalue)
  | @outward j parent hnone hlink hrest ih =>
      rw [lookup?_of_parent (h.missing j name hnone) ((h.parent j).trans hlink)
        (h.sound.ordered j parent hlink)]
      exact ih

theorem lookup?_eq_none
    (h : scopes.Realizes tree)
    (hnone : ∀ slot, ¬tree.Resolves id name slot) :
    scopes.lookup? id name = none := by
  induction id using Nat.strongRecOn with
  | ind id ih =>
      have hown : ∀ slot, ¬tree.Owns id name slot := fun slot hslot => hnone slot hslot.resolves
      have hfind := h.missing id name hown
      cases hlink : (tree.scope id).parent with
      | none =>
          rw [lookup?]
          simp [hfind, h.parent, hlink]
      | some parent =>
          have hlt := h.sound.ordered id parent hlink
          rw [lookup?_of_parent hfind ((h.parent id).trans hlink) hlt]
          exact ih parent hlt fun slot hslot => hnone slot (hslot.outward hown hlink)

/-- The value of a name is the one that was stored last in the slot that the name resolves to. -/
theorem reads (h : scopes.Realizes tree) (id : ScopeId) (name : String) :
    tree.Reads id name (scopes.value id name) := by
  by_cases hslot : ∃ slot, tree.Resolves id name slot
  · obtain ⟨slot, owner, hreaches, howns⟩ := hslot
    obtain ⟨v, hv⟩ := h.sound.stored owner name slot howns
    rw [value, h.lookup?_eq_some hreaches howns hv]
    exact .stored ⟨owner, hreaches, howns⟩ hv
  · have hnone := not_exists.mp hslot
    rw [value, h.lookup?_eq_none hnone]
    exact .undefined hnone

/-- Whatever a name reads as is its value. -/
theorem value_eq
    (h : scopes.Realizes tree)
    {r : Except Fault Value}
    (hreads : tree.Reads id name r) :
    scopes.value id name = r :=
  (h.reads id name).unique hreads

end Lookup

section Operations

theorem create
    (h : scopes.Realizes tree)
    (parent : Option ScopeId)
    (hparent : ∀ p ∈ parent, p < tree.scopes.length) :
    (scopes.create ⟨parent, []⟩).1.Realizes (tree.add ⟨parent, []⟩) where
  sound := h.sound.add hparent
  size := by simp [h.size, SlotTree.add]
  parent id := by
    rw [SlotTree.scope_add, ← h.size]
    split
    · next heq => rw [heq, get_create_self]
    · next hne => rw [get_create_of_ne _ hne, h.parent]
  found id name slot v hslot hvalue := by
    rw [SlotTree.owns_add_nil] at hslot
    have hne : id ≠ scopes.all.size := Nat.ne_of_lt (h.size ▸ hslot.lt_length)
    rw [get_create_of_ne _ hne]
    exact h.found id name slot v hslot hvalue
  missing id name hnone := by
    by_cases heq : id = scopes.all.size
    · rw [heq, get_create_self]
      rfl
    · rw [get_create_of_ne _ heq]
      exact h.missing id name fun slot hslot => hnone slot (SlotTree.owns_add_nil parent |>.mpr hslot)

theorem find?_define_self
    (h : scopes.Realizes tree)
    (hid : id < tree.scopes.length)
    (b : Binding) :
    ((scopes.define id b).get id).find? b.name = some b := by
  rw [get_define_self b (h.size ▸ hid), Scope.find?_define, if_pos rfl]

theorem find?_define_of_ne
    (h : scopes.Realizes tree)
    (hid : id < tree.scopes.length)
    {b : Binding}
    {id' : ScopeId}
    (hne : ¬(id' = id ∧ name = b.name)) :
    ((scopes.define id b).get id').find? name = (scopes.get id').find? name := by
  by_cases hscope : id' = id
  · subst hscope
    have hname : b.name ≠ name := fun heq => hne ⟨rfl, heq.symm⟩
    rw [get_define_self b (h.size ▸ hid), Scope.find?_define, if_neg hname]
  · rw [get_define_of_ne b hscope]

theorem define
    (h : scopes.Realizes tree)
    (hid : id < tree.scopes.length)
    (b : Binding) :
    (scopes.define id b).Realizes (tree.define id b.name b.value b.isConst) where
  sound := h.sound.define hid b.name b.value b.isConst
  size := by simp [h.size, SlotTree.define]
  parent id' := by
    rw [parent_define, SlotTree.parent_define, h.parent]
  found id' name slot v hslot hvalue := by
    rw [SlotTree.owns_define hid] at hslot
    split at hslot
    · next heq =>
        obtain ⟨rfl, rfl⟩ := heq
        subst hslot
        rw [SlotTree.latest?_define_self] at hvalue
        rw [h.find?_define_self hid, ← Option.some.inj hvalue]
    · next hne =>
        have hbirth := Nat.ne_of_lt (h.sound.birth_lt id' name slot hslot)
        rw [SlotTree.latest?_define_of_ne hbirth] at hvalue
        rw [h.find?_define_of_ne hid hne]
        exact h.found id' name slot v hslot hvalue
  missing id' name hnone := by
    have hne : ¬(id' = id ∧ name = b.name) :=
      fun heq => hnone _ ((SlotTree.owns_define hid).mpr ((if_pos heq).mpr rfl))
    rw [h.find?_define_of_ne hid hne]
    refine h.missing id' name fun slot hslot => hnone slot ?_
    rwa [SlotTree.owns_define hid, if_neg hne]

theorem assign
    (h : scopes.Realizes tree)
    (hslot : tree.Resolves id name slot)
    (hvariable : slot.isConst = false)
    (v : Value) :
    ∃ later, scopes.assign id name v = (.ok (), later) ∧ later.Realizes (tree.store slot v) := by
  obtain ⟨owner, hreaches, howns⟩ := hslot
  obtain ⟨old, hold⟩ := h.sound.stored owner name slot howns
  refine ⟨scopes.define owner ⟨name, v, slot.isConst⟩, ?_, ?_⟩
  · simp [Scopes.assign, h.lookup?_eq_some hreaches howns hold, hvariable]
  have howner := howns.lt_length
  refine ⟨h.sound.store slot v, by simp [h.size, SlotTree.store], fun id' => ?_,
    fun id' name' slot' w hslot' hvalue => ?_, fun id' name' hnone => ?_⟩
  · rw [parent_define, h.parent]
    rfl
  · rw [SlotTree.owns_store] at hslot'
    by_cases heq : slot' = slot
    · subst heq
      obtain rfl := h.sound.unaliased id' owner name' name slot' hslot' howns
      obtain rfl : name' = name := hslot'.name_eq.symm.trans howns.name_eq
      rw [SlotTree.latest?_store_self] at hvalue
      rw [← Option.some.inj hvalue]
      exact h.find?_define_self howner ⟨name', v, slot'.isConst⟩
    · rw [SlotTree.latest?_store_of_ne heq] at hvalue
      rw [h.find?_define_of_ne howner]
      · exact h.found id' name' slot' w hslot' hvalue
      · rintro ⟨rfl, rfl⟩
        exact heq (hslot'.unique howns)
  · rw [h.find?_define_of_ne howner]
    · exact h.missing id' name' hnone
    · rintro ⟨rfl, rfl⟩
      exact hnone slot howns

theorem copy
    (h : scopes.Realizes tree)
    (hid : id < tree.scopes.length) :
    (scopes.copy id).1.Realizes (tree.copy id) where
  sound := h.sound.copy hid
  size := by simp [Scopes.copy, h.size, SlotTree.copy, SlotTree.add]
  parent id' := by
    rw [SlotTree.parent_copy, ← h.size, Scopes.copy]
    split
    · next heq => rw [heq, get_create_self, h.parent]
    · next hne => rw [get_create_of_ne _ hne, h.parent]
  found id' name slot v hslot hvalue := by
    rw [SlotTree.owns_copy, ← h.size] at hslot
    rw [Scopes.copy]
    split at hslot
    · next heq =>
        obtain ⟨old, hold, rfl⟩ := hslot
        obtain ⟨w, hw⟩ := h.sound.stored id name old hold
        rw [SlotTree.latest?_copy_renewed hold hw] at hvalue
        rw [heq, get_create_self, ← Option.some.inj hvalue]
        exact h.found id name old w hold hw
    · next hne =>
        have hbirth := Nat.ne_of_lt (h.sound.birth_lt id' name slot hslot)
        rw [SlotTree.latest?_copy_of_ne hbirth] at hvalue
        rw [get_create_of_ne _ hne]
        exact h.found id' name slot v hslot hvalue
  missing id' name hnone := by
    rw [Scopes.copy]
    by_cases heq : id' = scopes.all.size
    · rw [heq, get_create_self]
      refine h.missing id name fun old hold => hnone (old.renewed tree.time) ?_
      rw [SlotTree.owns_copy, if_pos (heq.trans h.size)]
      exact ⟨old, hold, rfl⟩
    · rw [get_create_of_ne _ heq]
      refine h.missing id' name fun slot hslot => hnone slot ?_
      rwa [SlotTree.owns_copy, if_neg (h.size ▸ heq)]

end Operations

section Effects

/-- A name that resolves to a constant cannot be assigned to, and one that is not defined cannot
either. -/
theorem assign_constant
    (h : scopes.Realizes tree)
    (hslot : tree.Resolves id name slot)
    (hconst : slot.isConst = true)
    (v : Value) :
    scopes.assign id name v = (.error (.assignmentToConstant name), scopes) := by
  obtain ⟨owner, hreaches, howns⟩ := hslot
  obtain ⟨old, hold⟩ := h.sound.stored owner name slot howns
  simp [Scopes.assign, h.lookup?_eq_some hreaches howns hold, hconst]

theorem assign_undefined
    (h : scopes.Realizes tree)
    (hnone : ∀ slot, ¬tree.Resolves id name slot)
    (v : Value) :
    scopes.assign id name v = (.error (.undefinedVariable name), scopes) := by
  simp [Scopes.assign, h.lookup?_eq_none hnone]

/-- Scopes that realize a tree behave like it. -/
theorem accords (h : scopes.Realizes tree) : scopes.Accords tree where
  unaliased id id' name name' slot hslot hslot' :=
    ⟨h.sound.unaliased id id' name name' slot hslot hslot', hslot.name_eq.symm.trans hslot'.name_eq⟩
  get := h.reads
  assign id name slot v hslot hvariable := by
    obtain ⟨later, hassign, hlater⟩ := h.assign hslot hvariable v
    refine ⟨later, hassign, hlater, fun id' name' => ⟨fun hsame => ?_, fun hother => ?_⟩⟩
    · exact hlater.value_eq (SlotTree.reads_store_self hsame)
    · exact hlater.value_eq ((h.reads id' name').store hother)
  assign_constant id name slot v hslot hconst := h.assign_constant hslot hconst v
  assign_undefined id name v hnone := h.assign_undefined hnone v
  define id hid b := by
    have hid' : id < tree.scopes.length := h.size ▸ hid
    have hlater := h.define hid' b
    refine ⟨hlater, fun id' name => ⟨?_, fun hother => ?_⟩⟩
    · rintro ⟨rfl, hreaches⟩
      exact hlater.value_eq (SlotTree.reads_define_self hid' hreaches)
    · have hother' : ¬(name = b.name ∧ tree.Reaches b.name id id') := by
        rintro ⟨rfl, hreaches⟩
        exact hother ⟨rfl, hreaches⟩
      exact ⟨hlater.value_eq ((h.reads id' name).define h.sound hid' hother'),
        fun slot => SlotTree.resolves_define_of_not_reaches hid' hother'⟩
  copy id hid := by
    have hid' : id < tree.scopes.length := h.size ▸ hid
    have hlater := h.copy hid'
    refine ⟨(scopes.copy id).1, rfl, hlater, fun name => ?_, fun id' hlt name => ?_,
      fun name slot hslot => ?_, fun name hnone slot => ?_⟩
    · rw [h.size]
      exact hlater.value_eq ((h.reads id name).copy h.sound hid')
    · exact hlater.value_eq ((h.reads id' name).copy_of_lt h.sound (h.size ▸ hlt))
    · refine ⟨slot.renewed tree.time, ?_, rfl, fun id' name' hold => ?_⟩
      · rw [SlotTree.owns_copy, if_pos h.size]
        exact ⟨slot, hslot, rfl⟩
      · exact absurd (h.sound.birth_lt id' name' _ hold) (Nat.lt_irrefl _)
    · rw [h.size]
      exact SlotTree.resolves_copy_of_not_owns h.sound hid' hnone

end Effects

section Runs

/-- An operation on scopes that realize a tree is an operation on the tree. -/
theorem step
    (h : scopes.Realizes tree)
    {op : ScopeOperation}
    (hnames : op.Names tree.scopes.length) :
    ∃ next, tree.Step op (op.apply scopes).1 next ∧ (op.apply scopes).2.Realizes next ∧
      next.scopes.length = tree.scopes.length + op.created := by
  cases op with
  | root =>
      have hlater := h.create none nofun
      have hanswer := @SlotTree.Step.root tree
      rw [← h.size] at hanswer
      exact ⟨_, hanswer, hlater, by simp [SlotTree.add, ScopeOperation.created]⟩
  | child parent =>
      have hlater := h.create (some parent) fun p hp => Option.some.inj hp ▸ hnames
      have hanswer := SlotTree.Step.child hnames
      rw [← h.size] at hanswer
      exact ⟨_, hanswer, hlater, by simp [SlotTree.add, ScopeOperation.created]⟩
  | define id name v isConst =>
      have hlater := h.define hnames ⟨name, v, isConst⟩
      exact ⟨_, .define hnames, hlater, by simp [SlotTree.define, ScopeOperation.created]⟩
  | assign id name v =>
      simp only [ScopeOperation.apply]
      by_cases hslot : ∃ slot, tree.Resolves id name slot
      · obtain ⟨slot, hslot⟩ := hslot
        cases hconst : slot.isConst with
        | false =>
            obtain ⟨later, hassign, hlater⟩ := h.assign hslot hconst v
            rw [hassign]
            exact ⟨_, .assign hslot hconst, hlater, rfl⟩
        | true =>
            rw [h.assign_constant hslot hconst v]
            exact ⟨tree, .assign_constant hslot hconst, h, rfl⟩
      · have hnone := not_exists.mp hslot
        rw [h.assign_undefined hnone v]
        exact ⟨tree, .assign_undefined hnone, h, rfl⟩
  | get id name => exact ⟨tree, .get (h.reads id name), h, rfl⟩
  | copy id =>
      have hlater := h.copy hnames
      have hanswer := SlotTree.Step.copy hnames
      rw [← h.size] at hanswer
      exact ⟨_, hanswer, hlater, by simp [SlotTree.copy, SlotTree.add, ScopeOperation.created]⟩

/-- Operations on scopes that realize a tree are operations on the tree. -/
theorem run
    (h : scopes.Realizes tree)
    {ops : List ScopeOperation}
    (hnames : ScopeOperation.AllName tree.scopes.length ops) :
    ∃ final, SlotTree.Steps tree ops (ScopeOperation.run scopes ops).1 final ∧
      (ScopeOperation.run scopes ops).2.Realizes final := by
  induction ops generalizing scopes tree with
  | nil => exact ⟨tree, .nil, h⟩
  | cons op ops ih =>
      obtain ⟨hfirst, hrest⟩ := hnames
      obtain ⟨next, hstep, hnext, hlength⟩ := h.step hfirst
      rw [← hlength] at hrest
      obtain ⟨final, hsteps, hfinal⟩ := ih hnext hrest
      exact ⟨final, .cons hstep hsteps, hfinal⟩

end Runs

end Realizes

/-- Whatever operations are carried out on scopes, their answers are those of a tree of slots, and no
others are possible there. In the end, the scopes accord with the tree: no two names in scopes share a
slot; a name has the value that was stored last in the slot that it resolves to; an assignment shows
where a name resolves to this slot, and nowhere else; a definition shows where the way outward reaches
its scope before another one that has the name; a copy has the same values and slots of its own; what
fails changes nothing. -/
theorem refine_slots
    {ops : List ScopeOperation}
    (hnames : ScopeOperation.AllName 0 ops) :
    ∃ tree, SlotTree.Steps .empty ops (ScopeOperation.run .empty ops).1 tree ∧
      (∀ answers other, SlotTree.Steps .empty ops answers other →
        answers = (ScopeOperation.run .empty ops).1 ∧ other = tree) ∧
      (ScopeOperation.run .empty ops).2.Realizes tree ∧
      (ScopeOperation.run .empty ops).2.Accords tree := by
  obtain ⟨tree, hsteps, hfinal⟩ := Realizes.empty.run hnames
  exact ⟨tree, hsteps, fun answers other hother => hother.unique hsteps, hfinal, hfinal.accords⟩

/-- A scope with a variable and a constant is copied; the copy assigns to the variable, to one further
out and to the constant, and what is defined in the scope later does not concern the copy. -/
theorem refine_slots_copied :
    let ops : List ScopeOperation :=
      [.root, .define 0 "a" (.string "outer") false, .child 0, .define 1 "i" (.string "0") false,
        .define 1 "k" (.string "k") true, .copy 1, .assign 2 "i" (.string "1"),
        .assign 2 "a" (.string "shared"), .assign 2 "k" .nil, .define 1 "a" (.string "own") false,
        .get 1 "i", .get 2 "a", .get 0 "b"]
    ScopeOperation.AllName 0 ops ∧
    ∃ tree, SlotTree.Steps .empty ops
      [.ok (.created 0), .ok .done, .ok (.created 1), .ok .done, .ok .done, .ok (.created 2),
        .ok .done, .ok .done, .error (.assignmentToConstant "k"), .ok .done,
        .ok (.value (.string "0")), .ok (.value (.string "shared")),
        .error (.undefinedVariable "b")] tree ∧
      (ScopeOperation.run .empty ops).2.Accords tree := by
  intro ops
  have hnames : ScopeOperation.AllName 0 ops := by decide
  obtain ⟨tree, hsteps, -, -, haccords⟩ := refine_slots hnames
  refine ⟨hnames, tree, ?_, haccords⟩
  convert hsteps using 1
  decide +kernel

end Scopes

end Lox
