import Lox.Token

/-!
# Values

The values of the language. Numbers, strings, truth values and `nil` are themselves; everything else
has an identity and is a reference into the store of the machine that made it.
-/

namespace Lox

/-- The identity of a scope. -/
abbrev ScopeId := Nat

/-- The identity of a function or bound method. -/
abbrev FunctionId := Nat

/-- The identity of a method. -/
abbrev MethodId := Nat

/-- The identity of a built-in function. -/
abbrev NativeId := Nat

/-- The identity of a class. -/
abbrev ClassId := Nat

/-- The identity of an instance. -/
abbrev InstanceId := Nat

/-- The identity of a list. -/
abbrev ListId := Nat

/-- The identity of a map. -/
abbrev MapId := Nat

/-- The kinds of values. -/
inductive Kind
  | number | string | boolean | nil | function | native | «class» | «instance» | list | map
deriving DecidableEq

/-- The name of a kind in programs and messages. -/
def Kind.name : Kind → String
  | number => "number"
  | string => "string"
  | boolean => "boolean"
  | nil => "nil"
  | function => "function"
  | native => "native function"
  | «class» => "class"
  | «instance» => "instance"
  | list => "list"
  | map => "map"

/-- A value. -/
inductive Value
  | nil
  | boolean (b : Bool)
  | number (x : Float)
  | string (s : String)
  | function (id : FunctionId)
  | native (id : NativeId)
  | class (id : ClassId)
  | instance (id : InstanceId)
  | list (id : ListId)
  | map (id : MapId)
deriving DecidableEq

namespace Value

/-- The kind of a value. -/
def kind : Value → Kind
  | nil => .nil
  | boolean _ => .boolean
  | number _ => .number
  | string _ => .string
  | function _ => .function
  | native _ => .native
  | «class» _ => .class
  | «instance» _ => .instance
  | list _ => .list
  | map _ => .map

/-- Does the value count as true? All do but `nil` and `false`. -/
def truthy : Value → Bool
  | nil => false
  | boolean b => b
  | _ => true

/-- Are the values equal for the program? Values of different kinds never are, numbers compare as
numbers, and what has an identity is equal only to itself. -/
def equals : Value → Value → Bool
  | number x, number y => x == y
  | number _, _ => false
  | a, b => decide (a = b)

/-- The value that a literal denotes. -/
def ofLiteral : Literal → Value
  | .nil => .nil
  | .boolean b => .boolean b
  | .number x => .number x
  | .string s => .string s

/-- The number with the value of a natural number. -/
def ofNat (n : Nat) : Value :=
  .number (Float.ofNat n)

end Value

end Lox
