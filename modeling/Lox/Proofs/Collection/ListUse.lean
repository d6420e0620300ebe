import Lox.Proofs.Collection.InTurn
import Lox.Proofs.Rational

/-!
# The uses of a list

Whatever is done with a list, by indexing it or by calling its methods, is what is done with a
finite sequence, and a use that fails does nothing. An index stands for a position if it is a number
whose value is an integer within the bounds.
-/

namespace Lox

/-- A use of a list. -/
inductive ListUse
  | item (index : Value)
  | setItem (index value : Value)
  | add (value : Value)
  | pop
  | insert (index value : Value)
  | removeAt (index : Value)
  | indexOf (value : Value)
  | contains (value : Value)
  | length
  | clear

/-- The integer that a number is equal to. -/
def Number.integer? (x : Float) : Option Int :=
  (rational? x).bind fun q => if q.den = 1 then some q.num else none

/-- The position that an index stands for in a sequence of a length, if `bound` positions are
admitted. -/
def Value.place (index : Value) (bound length : Nat) : Except Fault Nat :=
  match index with
  | .number x =>
      match Number.integer? x with
      | none => .error (.fractionalIndex (Number.text x))
      | some i =>
          if 0 ≤ i ∧ i < bound then .ok i.toNat else .error (.indexOutOfBounds i length)
  | other => .error (.indexKind other.kind)

namespace ListUse

/-- The index that a use is given, and how many positions it admits in a sequence of a length. -/
def index? (size : Nat) : ListUse → Option (Value × Nat)
  | item index | setItem index _ | removeAt index => some (index, size)
  | insert index _ => some (index, size + 1)
  | add _ | pop | indexOf _ | contains _ | length | clear => none

/-- What the program does. -/
def run (list : ListId) : ListUse → Eval Value
  | item index => Eval.item (.list list) index
  | setItem index value => Eval.setItem (.list list) index value
  | add value => Eval.callListMethod list .add [value]
  | pop => Eval.callListMethod list .pop []
  | insert index value => Eval.callListMethod list .insert [index, value]
  | removeAt index => Eval.callListMethod list .removeAt [index]
  | indexOf value => Eval.callListMethod list .indexOf [value]
  | contains value => Eval.callListMethod list .contains [value]
  | length => Eval.callListMethod list .length []
  | clear => Eval.callListMethod list .clear []

/-- Do something at the position that an index stands for. -/
def atIndex
    (index : Value)
    (bound : Nat)
    (elements : List Value)
    (operation : Nat → Value × List Value) :
    Except Fault Value × List Value :=
  match index.place bound elements.length with
  | .ok i => (.ok (operation i).1, (operation i).2)
  | .error fault => (.error fault, elements)

/-- What it comes to. -/
def onElements (use : ListUse) (elements : List Value) : Except Fault Value × List Value :=
  match use with
  | item index =>
      atIndex index elements.length elements fun i => (elements.getD i .nil, elements)
  | setItem index value =>
      atIndex index elements.length elements fun i => (value, elements.set i value)
  | insert index value =>
      atIndex index (elements.length + 1) elements fun i => (.nil, elements.insertIdx i value)
  | removeAt index =>
      atIndex index elements.length elements fun i => (elements.getD i .nil, elements.eraseIdx i)
  | add value => (.ok .nil, elements ++ [value])
  | pop =>
      match elements.getLast? with
      | some last => (.ok last, elements.dropLast)
      | none => (.error .popFromEmpty, elements)
  | indexOf value =>
      match elements.findIdx? (·.equals value) with
      | some i => (.ok (.ofNat i), elements)
      | none => (.ok (.number (-1.0)), elements)
  | contains value => (.ok (.boolean (elements.any (·.equals value))), elements)
  | length => (.ok (.ofNat elements.length), elements)
  | clear => (.ok .nil, [])

end ListUse

namespace Number

theorem integer?_eq_some_iff {x : Float} {i : Int} :
    integer? x = some i ↔ rational? x = some (i : ℚ) := by
  unfold integer?
  rw [Option.bind_eq_some_iff]
  constructor
  · rintro ⟨q, hq, hi⟩
    split at hi
    · next hden =>
        cases hi
        rw [hq, (Rat.den_eq_one_iff q).mp hden]
    · cases hi
  · intro h
    exact ⟨i, h, by simp⟩

theorem integer?_eq (x : Float) : integer? x = Decimal.toInt? x :=
  Option.ext fun _ => integer?_eq_some_iff.trans toInt?_eq_some_iff.symm

end Number

theorem Value.place_eq (index : Value) (bound length : Nat) :
    index.place bound length = Sequence.position index bound length := by
  cases index with
  | number x =>
      cases hi : Decimal.toInt? x with
      | none => simp only [place, Sequence.position, Number.integer?_eq, hi]
      | some i => simp only [place, Sequence.position, Number.integer?_eq, hi]
  | nil | boolean | string | function | native | «class» | «instance» | list | map => rfl

/-- The value is a number that is equal to the integer. -/
def Value.IsInteger (v : Value) (i : Int) : Prop :=
  ∃ x, v = .number x ∧ Number.rational? x = some (i : ℚ)

section Places

variable {index : Value} {bound length : Nat}

theorem Value.IsInteger.unique {i j : Int} (hi : index.IsInteger i) (hj : index.IsInteger j) :
    i = j := by
  obtain ⟨x, rfl, hx⟩ := hi
  obtain ⟨y, hxy, hy⟩ := hj
  cases hxy
  rw [hx, Option.some.injEq, Int.cast_inj] at hy
  exact hy

/-- An index within the bounds stands for its value. -/
theorem Value.place_of_lt {i : Int} (hi : index.IsInteger i) (hbounds : 0 ≤ i ∧ i < bound) :
    index.place bound length = .ok i.toNat := by
  obtain ⟨x, rfl, hx⟩ := hi
  simp only [place, Number.integer?_eq_some_iff.mpr hx, if_pos hbounds]

theorem Value.place_of_not_lt {i : Int} (hi : index.IsInteger i) (hbounds : ¬(0 ≤ i ∧ i < bound)) :
    index.place bound length = .error (.indexOutOfBounds i length) := by
  obtain ⟨x, rfl, hx⟩ := hi
  simp only [place, Number.integer?_eq_some_iff.mpr hx, if_neg hbounds]

/-- What is equal to no integer is no index. -/
theorem Value.place_of_not_isInteger (h : ∀ i, ¬index.IsInteger i) :
    ∃ fault, index.place bound length = .error fault ∧ fault.kind = .typeMismatch := by
  cases index with
  | number x =>
      have hnone : Number.integer? x = none := by
        refine Option.eq_none_iff_forall_ne_some.mpr fun i hi => h i ⟨x, rfl, ?_⟩
        exact Number.integer?_eq_some_iff.mp hi
      exact ⟨.fractionalIndex (Number.text x), by simp only [place, hnone], rfl⟩
  | nil | boolean | string | function | native | «class» | «instance» | list | map =>
      exact ⟨.indexKind _, rfl, rfl⟩

end Places

namespace Machine

variable {m : Machine} {list : ListId}

theorem list_setList (hlist : list < m.lists.size) (elements : Sequence) :
    (m.setList list elements).list list = elements := by
  simp [Machine.list, setList, hlist]

theorem setList_list (m : Machine) (list : ListId) : m.setList list (m.list list) = m := by
  have h : m.lists.setIfInBounds list (m.list list) = m.lists := by
    by_cases hlist : list < m.lists.size
    · simp [Machine.list, hlist, Array.setIfInBounds]
    · exact Array.setIfInBounds_eq_of_size_le (Nat.le_of_not_lt hlist)
  rw [setList, h]

theorem setList_setList (m : Machine) (list : ListId) (elements others : Sequence) :
    (m.setList list elements).setList list others = m.setList list others := by
  simp [setList]

/-- An operation on a list changes only its elements. -/
theorem onList_eq {α : Type} (m : Machine) (operation : Sequence → Attempt Sequence α) :
    m.onList list operation =
      ((operation (m.list list)).1, m.setList list (operation (m.list list)).2) := by
  simp only [onList, takeList, setList_setList]

end Machine

namespace ListUse

open Eval

variable {m : Machine} {list : ListId}

/-- What follows from the effect of a use on the elements of the list. -/
def outcome (use : ListUse) (list : ListId) (m : Machine) : Outcome Value :=
  ofExcept (use.onElements (m.list list).toList).1
    (m.setList list (use.onElements (m.list list).toList).2.toArray)

/-- A use that only looks at the list. -/
theorem outcome_of_ofExcept
    {use : ListUse}
    (result : Except Fault Value)
    (h : use.onElements (m.list list).toList = (result, (m.list list).toList)) :
    ofExcept result m = use.outcome list m := by
  rw [outcome, h, Array.toArray_toList, Machine.setList_list]

/-- A use that operates on the list. -/
theorem outcome_of_onList
    {use : ListUse}
    (operation : Sequence → Attempt Sequence Value)
    (h : use.onElements (m.list list).toList =
      ((operation (m.list list)).1, (operation (m.list list)).2.toList)) :
    attempt (fun m => m.onList list operation) m = use.outcome list m := by
  rw [outcome, h, Array.toArray_toList, attempt, Machine.onList_eq]

/-- **One use.** A use of a list is the use of its elements. -/
theorem run_eq (m : Machine) (list : ListId) (use : ListUse) :
    use.run list m = use.outcome list m := by
  cases use with
  | item index =>
      refine outcome_of_ofExcept (Sequence.item (m.list list) index) ?_
      simp only [onElements, atIndex, Value.place_eq, Sequence.item, Array.length_toList]
      cases Sequence.position index (m.list list).size (m.list list).size with
      | ok i => simp [bind, Except.bind, pure, Except.pure]
      | error fault => rfl
  | setItem index value =>
      refine outcome_of_onList (Sequence.setItem index value) ?_
      simp only [onElements, atIndex, Value.place_eq, Sequence.setItem, Array.length_toList]
      cases Sequence.position index (m.list list).size (m.list list).size with
      | ok i => simp
      | error fault => rfl
  | insert index value =>
      refine outcome_of_onList (Sequence.insert index value) ?_
      simp only [onElements, atIndex, Value.place_eq, Sequence.insert, Array.length_toList]
      cases Sequence.position index ((m.list list).size + 1) (m.list list).size with
      | ok i =>
          obtain ⟨elements⟩ := m.list list
          simp
      | error fault => rfl
  | removeAt index =>
      refine outcome_of_onList (Sequence.removeAt index) ?_
      simp only [onElements, atIndex, Value.place_eq, Sequence.removeAt, Array.length_toList]
      cases Sequence.position index (m.list list).size (m.list list).size with
      | ok i => simp
      | error fault => rfl
  | add value =>
      refine outcome_of_onList (Sequence.add value) ?_
      simp [onElements, Sequence.add]
  | pop =>
      refine outcome_of_onList Sequence.pop ?_
      simp only [onElements, Sequence.pop, Array.getLast?_toList]
      cases (m.list list).back? with
      | some last => simp
      | none => rfl
  | indexOf value =>
      refine outcome_of_ofExcept (.ok _) ?_
      simp only [onElements, Sequence.indexOf?]
      obtain ⟨elements⟩ := m.list list
      rw [List.findIdx?_toArray]
      cases elements.findIdx? (·.equals value) <;> rfl
  | contains value =>
      refine outcome_of_ofExcept (.ok _) ?_
      simp only [onElements, Sequence.indexOf?]
      obtain ⟨elements⟩ := m.list list
      rw [List.findIdx?_toArray, List.findIdx?_isSome]
  | length => exact outcome_of_ofExcept (.ok _) rfl
  | clear => exact outcome_of_onList Sequence.clear rfl

section Indices

variable {use : ListUse} {index : Value} {bound : Nat} {elements : List Value}

/-- Three ways in which a use with an index can go. -/
theorem onElements_of_index
    (huse : use.index? elements.length = some (index, bound)) :
    (∃ i, index.IsInteger i ∧ (0 ≤ i ∧ i < bound) ∧ ∃ v, (use.onElements elements).1 = .ok v) ∨
      (∃ i, index.IsInteger i ∧ ¬(0 ≤ i ∧ i < bound) ∧
        ∃ fault, (use.onElements elements).1 = .error fault ∧ fault.kind = .indexOutOfBounds) ∨
      ((∀ i, ¬index.IsInteger i) ∧
        ∃ fault, (use.onElements elements).1 = .error fault ∧ fault.kind = .typeMismatch) := by
  obtain ⟨operation, heq⟩ :
      ∃ operation, use.onElements elements = atIndex index bound elements operation := by
    cases use <;> cases huse <;> exact ⟨_, rfl⟩
  rw [heq, atIndex]
  by_cases hinteger : ∃ i, index.IsInteger i
  · obtain ⟨i, hi⟩ := hinteger
    by_cases hbounds : 0 ≤ i ∧ i < bound
    · rw [Value.place_of_lt hi hbounds]
      exact .inl ⟨i, hi, hbounds, _, rfl⟩
    · rw [Value.place_of_not_lt hi hbounds]
      exact .inr (.inl ⟨i, hi, hbounds, _, rfl, rfl⟩)
  · have hnone : ∀ i, ¬index.IsInteger i := fun i hi => hinteger ⟨i, hi⟩
    obtain ⟨fault, hplace, hkind⟩ := Value.place_of_not_isInteger hnone
    rw [hplace]
    exact .inr (.inr ⟨hnone, fault, rfl, hkind⟩)

/-- A use that fails leaves the elements. -/
theorem onElements_of_error
    {fault : Fault}
    (h : (use.onElements elements).1 = .error fault) :
    (use.onElements elements).2 = elements := by
  have hatIndex {index : Value} {bound : Nat} {operation : Nat → Value × List Value}
      (h : (atIndex index bound elements operation).1 = .error fault) :
      (atIndex index bound elements operation).2 = elements := by
    unfold atIndex at h ⊢
    split at h
    · cases h
    · rfl
  cases use with
  | item | setItem | insert | removeAt => exact hatIndex h
  | pop =>
      simp only [onElements] at h ⊢
      split at h
      · cases h
      · rfl
  | indexOf value =>
      simp only [onElements] at h ⊢
      split at h <;> cases h
  | add | contains | length | clear => cases h

end Indices

section Runs

variable (use : ListUse) (m : Machine) (list : ListId)

theorem ending_run :
    (use.run list m).ending =
      (use.onElements (m.list list).toList).1.mapError Fault.interruption := by
  rw [run_eq, outcome, ending_ofExcept]

theorem machine_run :
    (use.run list m).machine =
      m.setList list (use.onElements (m.list list).toList).2.toArray := by
  rw [run_eq, outcome, machine_ofExcept]

/-- **Uses in turn.** Uses of a list are uses of its elements. -/
theorem inTurn_run {m : Machine} {list : ListId} (hlist : list < m.lists.size)
    (uses : List ListUse) :
    let after := inTurn (Eval.step (run list)) uses m
    let expected := inTurn onElements uses (m.list list).toList
    after.1 = expected.1.map (Except.mapError Fault.interruption) ∧
      (after.2.list list).toList = expected.2 ∧
      after.2 = m.setList list (after.2.list list) := by
  refine inTurn_view (fun n => (n.list list).toList) (Except.mapError Fault.interruption)
    (fun _ => True) (fun n => n = m.setList list (n.list list)) (fun use n _ hn => ?_) uses m
    (fun _ _ => trivial) (m.setList_list list).symm
  have hsize : list < n.lists.size := by
    rw [hn]
    simpa [Machine.setList] using hlist
  have hmachine : (Eval.step (run list) use n).2 =
      n.setList list (use.onElements (n.list list).toList).2.toArray :=
    use.machine_run n list
  refine ⟨use.ending_run n list, ?_, ?_⟩
  · rw [hmachine, Machine.list_setList hsize]
  · rw [hmachine, Machine.list_setList hsize]
    have hlast (elements : Sequence) : n.setList list elements = m.setList list elements := by
      rw [hn, Machine.setList_setList]
    exact hlast _

/-- A use that fails does nothing, and what stops it is a fault. -/
theorem eq_of_stopped {use : ListUse} {m n : Machine} {list : ListId} {why : Interruption}
    (h : use.run list m = .stopped why n) :
    n = m ∧ ∃ fault : Fault, why = fault.interruption := by
  have hending := use.ending_run m list
  have hmachine := use.machine_run m list
  rw [h] at hending hmachine
  cases hresult : (use.onElements (m.list list).toList).1 with
  | ok v =>
      rw [hresult] at hending
      cases hending
  | error fault =>
      rw [hresult] at hending
      rw [onElements_of_error hresult, Array.toArray_toList, Machine.setList_list] at hmachine
      cases hending
      exact ⟨hmachine, fault, rfl⟩

/-- When a use with an index succeeds, and how it fails. -/
theorem ending_of_index
    {use : ListUse} {m : Machine} {list : ListId} {index : Value} {bound : Nat}
    (huse : use.index? (m.list list).toList.length = some (index, bound)) :
    let ending := (use.run list m).ending
    ((∃ v, ending = .ok v) ↔ ∃ i, index.IsInteger i ∧ 0 ≤ i ∧ i < bound) ∧
      ((∃ fault : Fault, ending = .error fault.interruption ∧ fault.kind = .indexOutOfBounds) ↔
        ∃ i, index.IsInteger i ∧ ¬(0 ≤ i ∧ i < bound)) ∧
      ((∃ fault : Fault, ending = .error fault.interruption ∧ fault.kind = .typeMismatch) ↔
        ∀ i, ¬index.IsInteger i) := by
  rw [ending_run]
  rcases onElements_of_index huse with
    ⟨i, hi, hbounds, v, hv⟩ | ⟨i, hi, hbounds, fault, hfault, hkind⟩ | ⟨hnone, fault, hfault, hkind⟩
  · rw [hv]
    refine ⟨⟨fun _ => ⟨i, hi, hbounds⟩, fun _ => ⟨v, rfl⟩⟩, ⟨nofun, ?_⟩, ⟨nofun, ?_⟩⟩
    · rintro ⟨j, hj, hout⟩
      exact absurd (hi.unique hj ▸ hbounds) hout
    · intro h
      exact absurd hi (h i)
  · rw [hfault]
    refine ⟨⟨nofun, ?_⟩, ⟨fun _ => ⟨i, hi, hbounds⟩, fun _ => ⟨fault, rfl, hkind⟩⟩, ⟨?_, ?_⟩⟩
    · rintro ⟨j, hj, hin⟩
      exact absurd (hj.unique hi ▸ hin) hbounds
    · rintro ⟨other, heq, hother⟩
      cases heq
      rw [hkind] at hother
      cases hother
    · intro h
      exact absurd hi (h i)
  · rw [hfault]
    refine ⟨⟨nofun, ?_⟩, ⟨?_, ?_⟩, ⟨fun _ => hnone, fun _ => ⟨fault, rfl, hkind⟩⟩⟩
    · rintro ⟨i, hi, -⟩
      exact absurd hi (hnone i)
    · rintro ⟨other, heq, hother⟩
      cases heq
      rw [hkind] at hother
      cases hother
    · rintro ⟨i, hi, -⟩
      exact absurd hi (hnone i)

/-- What is searched for is found at its first position, or nowhere. -/
theorem ending_indexOf (m : Machine) (list : ListId) (value : Value) :
    let elements := (m.list list).toList
    (∃ i e, elements[i]? = some e ∧ e.equals value = true ∧
        (∀ j < i, ∀ e ∈ elements[j]?, e.equals value = false) ∧
        ((indexOf value).run list m).ending = .ok (.ofNat i) ∧
        ((contains value).run list m).ending = .ok (.boolean true)) ∨
      (∀ e ∈ elements, e.equals value = false) ∧
        ((indexOf value).run list m).ending = .ok (.number (-1.0)) ∧
        ((contains value).run list m).ending = .ok (.boolean false) := by
  intro elements
  rw [ending_run, ending_run]
  simp only [onElements, ← List.findIdx?_isSome]
  cases hfound : elements.findIdx? (·.equals value) with
  | none => exact .inr ⟨List.findIdx?_eq_none_iff.mp hfound, rfl, rfl⟩
  | some i =>
      obtain ⟨hi, hequals, hbefore⟩ := List.findIdx?_eq_some_iff_getElem.mp hfound
      refine .inl ⟨i, elements[i], List.getElem?_eq_getElem hi, hequals, fun j hj e he => ?_,
        rfl, rfl⟩
      obtain ⟨hlt, rfl⟩ := List.getElem?_eq_some_iff.mp he
      exact Bool.eq_false_iff.mpr (hbefore j hj)

end Runs

end ListUse

/-- The text of a list that is not yet being written shows its elements in order. -/
theorem Machine.text_list (m : Machine) (list : ListId) :
    m.text (.list list) =
      "[" ++ ", ".intercalate
        ((m.list list).toList.map (m.textWithin m.containers [.list list])) ++ "]" := by
  simp only [text, textWithin, List.not_mem_nil, if_false]

section Main

open ListUse

/-- **Lists are sequences.** For every list:

* any finite sequence of uses has the results and faults of the same uses of its elements, leaves
  the elements that those leave, and changes nothing else of the machine;
* the text of the list shows its elements in order;
* a use with an index succeeds exactly if the index is equal to an integer within the bounds, an
  index that is equal to another integer is out of bounds, and any other index is a type mismatch;
  the negative zero is equal to zero;
* nothing can be taken from the end of an empty list;
* a use that fails does nothing;
* `indexOf` gives the first position of an element that equals the value, or else -1, and `contains`
  says whether there is one. -/
theorem lists_are_sequences (m : Machine) (list : ListId) (hlist : list < m.lists.size) :
    let elements := (m.list list).toList
    (∀ uses : List ListUse,
      let after := inTurn (Eval.step (run list)) uses m
      let expected := inTurn onElements uses elements
      after.1 = expected.1.map (Except.mapError Fault.interruption) ∧
        after.2 = m.setList list expected.2.toArray ∧
        after.2.text (.list list) =
          "[" ++ ", ".intercalate
            (expected.2.map (after.2.textWithin after.2.containers [.list list])) ++ "]") ∧
    (∀ (use : ListUse) (index : Value) (bound : Nat),
      use.index? elements.length = some (index, bound) →
      let ending := (use.run list m).ending
      ((∃ v, ending = .ok v) ↔ ∃ i, index.IsInteger i ∧ 0 ≤ i ∧ i < bound) ∧
        ((∃ fault : Fault, ending = .error fault.interruption ∧ fault.kind = .indexOutOfBounds) ↔
          ∃ i, index.IsInteger i ∧ ¬(0 ≤ i ∧ i < bound)) ∧
        ((∃ fault : Fault, ending = .error fault.interruption ∧ fault.kind = .typeMismatch) ↔
          ∀ i, ¬index.IsInteger i)) ∧
    (Value.number (-0.0)).IsInteger 0 ∧
    (elements = [] → (pop.run list m).ending = .error Fault.popFromEmpty.interruption ∧
      Fault.popFromEmpty.kind = .indexOutOfBounds) ∧
    (∀ (use : ListUse) why n, use.run list m = .stopped why n →
      n = m ∧ ∃ fault : Fault, why = fault.interruption) ∧
    (∀ value,
      (∃ i e, elements[i]? = some e ∧ e.equals value = true ∧
        (∀ j < i, ∀ e ∈ elements[j]?, e.equals value = false) ∧
        ((indexOf value).run list m).ending = .ok (.ofNat i) ∧
        ((contains value).run list m).ending = .ok (.boolean true)) ∨
      (∀ e ∈ elements, e.equals value = false) ∧
        ((indexOf value).run list m).ending = .ok (.number (-1.0)) ∧
        ((contains value).run list m).ending = .ok (.boolean false)) := by
  intro elements
  refine ⟨fun uses => ?_, fun use index bound huse => ?_, ⟨-0.0, rfl, by decide +kernel⟩, ?_,
    fun use why n h => eq_of_stopped h, fun value => ?_⟩
  · obtain ⟨hresults, helements, hrest⟩ := inTurn_run hlist uses
    refine ⟨hresults, ?_, ?_⟩
    · rw [← helements, Array.toArray_toList]
      exact hrest
    · rw [← helements]
      exact Machine.text_list _ _
  · exact ending_of_index huse
  · intro hempty
    refine ⟨?_, rfl⟩
    have hpop : pop.onElements elements = (.error .popFromEmpty, []) := by rw [hempty]; rfl
    rw [ending_run, hpop]
    rfl
  · exact ending_indexOf m list value

theorem lists_are_sequences_bounds :
    let number (x : Float) := Value.number x
    let uses : List ListUse :=
      [.insert (number (-0.0)) (.string "a"), .insert (number 2) (.boolean true),
        .setItem (number 3) .nil, .item (number 0.5), .item (number (1 / 0)), .removeAt (number 1),
        .item (.string "0"), .indexOf (.boolean true), .removeAt (number (-1))]
    let m := ((Machine.initial fun _ => 0).newList #[.nil]).2
    let after := inTurn (Eval.step (run 0)) uses m
    0 < m.lists.size ∧
      after.1.map Except.toOption =
        [some .nil, some .nil, none, none, none, some .nil, none, some (number 1), none] ∧
      after.2 = m.setList 0 #[.string "a", .boolean true] := by
  intro number uses m after
  obtain ⟨hruns, -⟩ := lists_are_sequences m 0 Nat.zero_lt_one
  obtain ⟨hresults, hlast, -⟩ := hruns uses
  have helements : (inTurn onElements uses (m.list 0).toList).2 =
      [.string "a", .boolean true] := by
    decide +kernel
  rw [helements] at hlast
  refine ⟨Nat.zero_lt_one, ?_, hlast⟩
  rw [hresults]
  decide +kernel

end Main

end Lox
