import Lox.Fault

/-!
# Dictionaries

The contents of a map: entries in the order in which their keys were first set. An operation that
fails leaves the entries as they were. Keys are strings and numbers; two keys are the same if the
program could not tell them apart by `==`, so both zeros are one key, and the key stored first
stays.
-/

namespace Lox

/-- A key of a map. -/
inductive Key
  | string (s : String)
  | number (x : Float)
deriving DecidableEq

namespace Key

/-- The key that a value stands for; only strings and numbers are keys. -/
def ofValue : Value → Except Fault Key
  | .string s => .ok (string s)
  | .number x => .ok (number x)
  | other => .error (.keyKind other.kind)

/-- The key as a value. -/
def toValue : Key → Value
  | string s => .string s
  | number x => .number x

/-- Are the keys equal for the program? -/
def same (a b : Key) : Bool :=
  a.toValue.equals b.toValue

/-- The key as a message names it. -/
def described : Key → String
  | string s => s!"'{s}'"
  | number x => Number.text x

end Key

/-- The entries of a map. -/
abbrev Dictionary := List (Key × Value)

namespace Dictionary

/-- The value under a key. -/
def find? (entries : Dictionary) (key : Key) : Option Value :=
  (List.find? (fun entry => entry.1.same key) entries).map (·.2)

/-- Set the value under a key. A known key keeps its place and its first form. -/
def put (entries : Dictionary) (key : Key) (value : Value) : Dictionary :=
  match entries with
  | [] => [(key, value)]
  | entry :: rest =>
      if entry.1.same key then (entry.1, value) :: rest else entry :: put rest key value

/-- Remove a key with its value. -/
def without (entries : Dictionary) (key : Key) : Dictionary :=
  entries.filter fun entry => !entry.1.same key

/-- The value under a value that must be a key of the map. -/
def item (entries : Dictionary) (key : Value) : Except Fault Value := do
  let key ← Key.ofValue key
  match entries.find? key with
  | some value => return value
  | none => throw (.undefinedKey key.described)

/-- Set the value under a value that must be fit for a key. -/
def setItem (key value : Value) (entries : Dictionary) : Attempt Dictionary Value :=
  match Key.ofValue key with
  | .ok key => (.ok value, entries.put key value)
  | .error fault => (.error fault, entries)

/-- Is there an entry under the key? -/
def has (entries : Dictionary) (key : Value) : Except Fault Value := do
  return .boolean (entries.find? (← Key.ofValue key)).isSome

/-- The value under the key, or a substitute. -/
def itemOr (entries : Dictionary) (key substitute : Value) : Except Fault Value := do
  return (entries.find? (← Key.ofValue key)).getD substitute

/-- Remove the entry under the key; was there one? -/
def remove (key : Value) (entries : Dictionary) : Attempt Dictionary Value :=
  match Key.ofValue key with
  | .ok key => (.ok (.boolean (entries.find? key).isSome), entries.without key)
  | .error fault => (.error fault, entries)

/-- Remove every entry. -/
def clear (_ : Dictionary) : Attempt Dictionary Value :=
  (.ok .nil, [])

/-- The keys as values, in order. -/
def keys (entries : Dictionary) : Array Value :=
  (entries.map fun entry => entry.1.toValue).toArray

/-- The values, in the order of their keys. -/
def values (entries : Dictionary) : Array Value :=
  (entries.map (·.2)).toArray

end Dictionary

end Lox
