import Lox.Fault

/-!
# Sequences

The contents of a list and the operations on them. An index is a number of integral value within the
bounds; an operation that fails leaves the sequence as it was.
-/

namespace Lox

/-- The elements of a list. -/
abbrev Sequence := Array Value

namespace Sequence

/-- The position that an index stands for in a sequence with `bound` admissible positions; `length`
is the length that a complaint mentions. -/
def position (index : Value) (bound length : Nat) : Except Fault Nat :=
  match index with
  | .number x =>
      match Decimal.toInt? x with
      | none => .error (.fractionalIndex (Number.text x))
      | some i =>
          if 0 ≤ i ∧ i < bound then .ok i.toNat else .error (.indexOutOfBounds i length)
  | other => .error (.indexKind other.kind)

/-- The element at an index. -/
def item (elements : Sequence) (index : Value) : Except Fault Value := do
  let i ← position index elements.size elements.size
  return elements[i]?.getD .nil

/-- Replace the element at an index. -/
def setItem (index value : Value) (elements : Sequence) : Attempt Sequence Value :=
  match position index elements.size elements.size with
  | .ok i => (.ok value, elements.setIfInBounds i value)
  | .error fault => (.error fault, elements)

/-- Add an element at the end. -/
def add (value : Value) (elements : Sequence) : Attempt Sequence Value :=
  (.ok .nil, elements.push value)

/-- Insert an element before an index, or at the end. -/
def insert (index value : Value) (elements : Sequence) : Attempt Sequence Value :=
  match position index (elements.size + 1) elements.size with
  | .ok i => (.ok .nil, elements.insertIdxIfInBounds i value)
  | .error fault => (.error fault, elements)

/-- Take out the element at an index. -/
def removeAt (index : Value) (elements : Sequence) : Attempt Sequence Value :=
  match position index elements.size elements.size with
  | .ok i => (.ok (elements[i]?.getD .nil), elements.eraseIdxIfInBounds i)
  | .error fault => (.error fault, elements)

/-- Take out the last element. -/
def pop (elements : Sequence) : Attempt Sequence Value :=
  match elements.back? with
  | some last => (.ok last, Array.pop elements)
  | none => (.error .popFromEmpty, elements)

/-- Remove every element. -/
def clear (_ : Sequence) : Attempt Sequence Value :=
  (.ok .nil, #[])

/-- The least position of an element that equals the value. -/
def indexOf? (elements : Sequence) (value : Value) : Option Nat :=
  elements.findIdx? (·.equals value)

end Sequence

end Lox
