import Lox.Fault

/-!
# Scopes

Scopes form a tree: each has bindings of its own, in the order of their definition, and a link to
the scope around it, which was created before it. All scopes live in one store and are referred to
by number, so that several closures can share a binding.
-/

namespace Lox

/-- A name with its value. A constant may not be assigned to. -/
structure Binding where
  name : String
  value : Value
  isConst : Bool
deriving DecidableEq

/-- The bindings of one scope, and the scope around it. -/
structure Scope where
  parent : Option ScopeId
  bindings : List Binding
deriving DecidableEq

namespace Scope

/-- The binding of a name in this scope. -/
def find? (scope : Scope) (name : String) : Option Binding :=
  scope.bindings.find? (·.name == name)

/-- Replace the binding of the same name, which keeps its place, or add the binding at the end. -/
def place (b : Binding) : List Binding → List Binding
  | [] => [b]
  | old :: rest => if old.name = b.name then b :: rest else old :: place b rest

/-- Create or overwrite a binding. -/
def define (scope : Scope) (b : Binding) : Scope :=
  { scope with bindings := place b scope.bindings }

end Scope

/-- All scopes of a machine, numbered in the order of their creation. -/
structure Scopes where
  all : Array Scope
deriving DecidableEq

namespace Scopes

/-- No scope. -/
def empty : Scopes := ⟨#[]⟩

/-- The scope with a number; there is nothing in a scope that does not exist. -/
def get (scopes : Scopes) (id : ScopeId) : Scope :=
  scopes.all[id]?.getD ⟨none, []⟩

/-- Create a scope. -/
def create (scopes : Scopes) (scope : Scope) : Scopes × ScopeId :=
  let id := scopes.all.size
  (⟨scopes.all.push scope⟩, id)

/-- Create or overwrite a binding in one scope. -/
def define (scopes : Scopes) (id : ScopeId) (b : Binding) : Scopes :=
  ⟨scopes.all.modify id (·.define b)⟩

/-- The innermost binding of a name on the way outward from a scope, and the scope it is in. -/
def lookup? (scopes : Scopes) (id : ScopeId) (name : String) : Option (ScopeId × Binding) :=
  let scope := scopes.get id
  match scope.find? name with
  | some b => some (id, b)
  | none =>
      match scope.parent with
      | none => none
      | some parent => if parent < id then scopes.lookup? parent name else none
termination_by id

/-- The value of a name. -/
def value (scopes : Scopes) (id : ScopeId) (name : String) : Except Fault Value :=
  match scopes.lookup? id name with
  | some (_, b) => .ok b.value
  | none => .error (.undefinedVariable name)

/-- Store a value in an existing binding that is not constant. -/
def assign (scopes : Scopes) (id : ScopeId) (name : String) (value : Value) : Attempt Scopes Unit :=
  match scopes.lookup? id name with
  | none => (.error (.undefinedVariable name), scopes)
  | some (owner, b) =>
      if b.isConst then
        (.error (.assignmentToConstant name), scopes)
      else
        (.ok (), scopes.define owner { b with value := value })

/-- A scope with the same parent and bindings of its own that equal the present ones. -/
def copy (scopes : Scopes) (id : ScopeId) : Scopes × ScopeId :=
  scopes.create (scopes.get id)

/-- A scope and those around it, innermost first, ending before `stop`. -/
def chain (scopes : Scopes) (id : ScopeId) (stop : Option ScopeId) : List ScopeId :=
  if some id = stop then
    []
  else
    match (scopes.get id).parent with
    | none => [id]
    | some parent => if parent < id then id :: scopes.chain parent stop else [id]
termination_by id

/-- The number of scopes from a scope outward. -/
def depth (scopes : Scopes) (id : ScopeId) : Nat :=
  (scopes.chain id none).length

/-- A scope in its debug form: its names and its depth. -/
def debug (scopes : Scopes) (id : ScopeId) : String :=
  let names := (scopes.get id).bindings.map fun b => Text.quoted b.name
  let shown := ", ".intercalate names
  s!"Environment([{shown}], depth={scopes.depth id})"

end Scopes

end Lox
