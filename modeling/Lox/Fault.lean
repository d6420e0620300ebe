import Lox.Value

/-!
# Runtime faults

The causes for which a running program fails, with the kind, the message and the hint of each.
-/

namespace Lox

/-- A cause of failure at run time. -/
inductive Fault
  | undefinedVariable (name : String)
  | assignmentToConstant (name : String)
  | undefinedProperty (name owner : String)
  | undefinedSuperMethod (name : String)
  | undefinedKey (key : String)
  | addends (left right : Kind)
  | operands (op : String) (left right : Kind)
  | negated (operand : Kind)
  | indexKind (index : Kind)
  | fractionalIndex (index : String)
  | keyKind (key : Kind)
  | lengthOf (value : Kind)
  | notIndexable (value : Kind)
  | noProperties (value : Kind)
  | noFields (value : Kind)
  | divisionByZero
  | moduloByZero
  | zeroToNegativePower
  | arity (name : String) (expected actual : Nat)
  | indexOutOfBounds (index : Int) (length : Nat)
  | popFromEmpty
  | superclassKind (value : Kind)
  | callDepth (limit : Nat)
  | hostDepth
  | notCallable (value : Kind)
deriving DecidableEq

/-- The kinds of runtime errors. -/
inductive FaultKind
  | undefinedVariable | undefinedProperty | undefinedKey | typeMismatch | divisionByZero
  | arityMismatch | indexOutOfBounds | invalidSuperclass | stackOverflow | constantReassignment
  | notCallable
deriving DecidableEq

namespace FaultKind

/-- The title of a kind. -/
def title : FaultKind → String
  | undefinedVariable => "UndefinedVariable"
  | undefinedProperty => "UndefinedProperty"
  | undefinedKey => "UndefinedKey"
  | typeMismatch => "TypeMismatch"
  | divisionByZero => "DivisionByZero"
  | arityMismatch => "ArityMismatch"
  | indexOutOfBounds => "IndexOutOfBounds"
  | invalidSuperclass => "InvalidSuperclass"
  | stackOverflow => "StackOverflow"
  | constantReassignment => "ConstantReassignment"
  | notCallable => "NotCallable"

/-- The code of a kind. -/
def code : FaultKind → String
  | undefinedVariable => "LOX3001"
  | undefinedProperty => "LOX3002"
  | undefinedKey => "LOX3003"
  | typeMismatch => "LOX3004"
  | divisionByZero => "LOX3005"
  | arityMismatch => "LOX3006"
  | indexOutOfBounds => "LOX3007"
  | invalidSuperclass => "LOX3008"
  | stackOverflow => "LOX3009"
  | constantReassignment => "LOX3010"
  | notCallable => "LOX3011"

/-- The hint for errors of a kind, if there is one. -/
def help? : FaultKind → Option String
  | undefinedVariable => some "declare the variable with 'var' before using or assigning it"
  | typeMismatch => some "operands are never converted implicitly"
  | divisionByZero => some "ensure the denominator is not zero before dividing"
  | stackOverflow => some "check for unbounded recursion"
  | constantReassignment => some "declare the binding with 'var' if it needs to change"
  | undefinedKey =>
      some "use has(key) or get(key, default) to look up a key that may be missing"
  | undefinedProperty | arityMismatch | indexOutOfBounds | invalidSuperclass | notCallable => none

end FaultKind

namespace Fault

/-- The kind of a fault. -/
def kind : Fault → FaultKind
  | undefinedVariable _ => .undefinedVariable
  | assignmentToConstant _ => .constantReassignment
  | undefinedProperty _ _ | undefinedSuperMethod _ => .undefinedProperty
  | undefinedKey _ => .undefinedKey
  | addends _ _ | operands _ _ _ | negated _ | indexKind _ | fractionalIndex _ | keyKind _
  | lengthOf _ | notIndexable _ | noProperties _ | noFields _ => .typeMismatch
  | divisionByZero | moduloByZero | zeroToNegativePower => .divisionByZero
  | arity _ _ _ => .arityMismatch
  | indexOutOfBounds _ _ | popFromEmpty => .indexOutOfBounds
  | superclassKind _ => .invalidSuperclass
  | callDepth _ | hostDepth => .stackOverflow
  | notCallable _ => .notCallable

/-- The complaint about a fault. -/
def message : Fault → String
  | undefinedVariable name => s!"undefined variable '{name}'"
  | assignmentToConstant name => s!"cannot assign to constant '{name}'"
  | undefinedProperty name owner => s!"undefined property '{name}' on {owner}"
  | undefinedSuperMethod name => s!"undefined superclass method '{name}'"
  | undefinedKey key => s!"undefined key {key}"
  | addends left right =>
      s!"operands of '+' must be two numbers or two strings, got {left.name} and {right.name}"
  | operands op left right =>
      s!"operands of '{op}' must be numbers, got {left.name} and {right.name}"
  | negated operand => s!"operand of '-' must be a number, got {operand.name}"
  | indexKind index => s!"list index must be a number, got {index.name}"
  | fractionalIndex index => s!"list index must be an integer, got {index}"
  | keyKind key => s!"map keys must be strings or numbers, got {key.name}"
  | lengthOf value => s!"len() expects a string, list or map, got {value.name}"
  | notIndexable value => s!"only lists and maps can be indexed, got {value.name}"
  | noProperties value => s!"only instances have properties, got {value.name}"
  | noFields value => s!"only instances have fields, got {value.name}"
  | divisionByZero => "division by zero"
  | moduloByZero => "modulo by zero"
  | zeroToNegativePower => "zero raised to a negative power"
  | arity name expected actual =>
      let plural := if expected = 1 then "" else "s"
      s!"{name} expected {expected} argument{plural} but got {actual}"
  | indexOutOfBounds index length => s!"index {index} out of bounds for list of length {length}"
  | popFromEmpty => "pop from empty list"
  | superclassKind value => s!"superclass must be a class, got {value.name}"
  | callDepth limit => s!"stack overflow (more than {limit} nested calls)"
  | hostDepth => "stack overflow"
  | notCallable value => s!"can only call functions and classes, got {value.name}"

end Fault

/-- The outcome of an operation on a store: a result or a fault, and the store after it. -/
abbrev Attempt (σ α : Type) := Except Fault α × σ

end Lox
