import Lox.Collection.Dictionary
import Lox.Collection.Sequence
import Lox.Scope
import Lox.Tree

/-!
# The machine

The state of a running program: its scopes, everything that has an identity, the scope that is
current, the active calls, what has been printed, and the clock. Objects are numbered per kind in
the order of their creation and never removed.
-/

namespace Lox

/-- What a function value refers to. -/
inductive FunctionObject
  /-- A function with the scope it was made in. -/
  | closure
      (name : String)
      (params : List String)
      (body : List Stmt)
      (scope : ScopeId)
  /-- A method together with the instance it was read from. -/
  | bound (receiver : InstanceId) (method : MethodId)

/-- A method: a function with the scope around its class and the class that declared it. It is no
value by itself: a program only ever holds it bound to an instance. -/
structure MethodObject where
  name : String
  params : List String
  body : List Stmt
  scope : ScopeId
  owner : ClassId
  isInitializer : Bool

/-- The functions that every program finds defined. -/
inductive Builtin
  | clock | typeOf | str | len
deriving DecidableEq

/-- The methods of lists. -/
inductive ListMethod
  | add | pop | insert | removeAt | length | contains | indexOf | clear
deriving DecidableEq

/-- The methods of maps. -/
inductive MapMethod
  | has | get | remove | keys | values | length | clear
deriving DecidableEq

/-- What a native function refers to. -/
inductive NativeObject
  | builtin (f : Builtin)
  | listMethod (list : ListId) (method : ListMethod)
  | mapMethod (map : MapId) (method : MapMethod)
deriving DecidableEq

namespace Builtin

/-- The built-in functions in the order of their definition. -/
def all : List Builtin := [clock, typeOf, str, len]

/-- The name of a built-in function. -/
def name : Builtin → String
  | clock => "clock"
  | typeOf => "typeOf"
  | str => "str"
  | len => "len"

/-- The number of arguments of a built-in function. -/
def arity : Builtin → Nat
  | clock => 0
  | typeOf | str | len => 1

end Builtin

namespace ListMethod

/-- The methods of lists in the order of their definition. -/
def all : List ListMethod := [add, pop, insert, removeAt, length, contains, indexOf, clear]

/-- The name of a method. -/
def name : ListMethod → String
  | add => "add"
  | pop => "pop"
  | insert => "insert"
  | removeAt => "removeAt"
  | length => "length"
  | contains => "contains"
  | indexOf => "indexOf"
  | clear => "clear"

/-- The number of arguments of a method. -/
def arity : ListMethod → Nat
  | pop | length | clear => 0
  | add | removeAt | contains | indexOf => 1
  | insert => 2

end ListMethod

namespace MapMethod

/-- The methods of maps in the order of their definition. -/
def all : List MapMethod := [has, get, remove, keys, values, length, clear]

/-- The name of a method. -/
def name : MapMethod → String
  | has => "has"
  | get => "get"
  | remove => "remove"
  | keys => "keys"
  | values => "values"
  | length => "length"
  | clear => "clear"

/-- The number of arguments of a method. -/
def arity : MapMethod → Nat
  | keys | values | length | clear => 0
  | has | remove => 1
  | get => 2

end MapMethod

namespace NativeObject

/-- The name of a native function. -/
def name : NativeObject → String
  | builtin f => f.name
  | listMethod _ method => method.name
  | mapMethod _ method => method.name

/-- The number of arguments of a native function. -/
def arity : NativeObject → Nat
  | builtin f => f.arity
  | listMethod _ method => method.arity
  | mapMethod _ method => method.arity

end NativeObject

/-- A class: its name, its superclass and its own methods. -/
structure ClassObject where
  name : String
  superclass : Option ClassId
  methods : List (String × MethodId)
deriving DecidableEq

/-- An instance: its class and its fields. -/
structure InstanceObject where
  classId : ClassId
  fields : List (String × Value)
deriving DecidableEq

/-- An active call: the name of the callee and where it was called from. -/
structure Frame where
  name : String
  callSite : Option Span
deriving DecidableEq

/-- The state of a running program. -/
structure Machine where
  scopes : Scopes
  functions : Array FunctionObject
  methods : Array MethodObject
  natives : Array NativeObject
  classes : Array ClassObject
  instances : Array InstanceObject
  lists : Array Sequence
  maps : Array Dictionary
  /-- The current scope. -/
  current : ScopeId
  /-- The active calls, innermost first. -/
  frames : List Frame
  output : String
  /-- The value of the expression statement that was completed last. -/
  lastValue : Value
  /-- The readings of the clock, and how many of them have been taken. -/
  clock : Nat → Float
  readings : Nat

namespace Machine

/-- The scope of the built-in functions. -/
def builtinScope : ScopeId := 0

/-- The scope of the program's own global names, inside the one of the built-in functions. -/
def globalScope : ScopeId := 1

/-- A machine before its first program: the built-in functions are defined, in a scope around the
global one. -/
def initial (clock : Nat → Float) : Machine where
  scopes :=
    ⟨#[{ parent := none
         bindings := Builtin.all.mapIdx fun i f => ⟨f.name, .native i, false⟩ },
       { parent := some builtinScope
         bindings := [] }]⟩
  functions := #[]
  methods := #[]
  natives := (Builtin.all.map .builtin).toArray
  classes := #[]
  instances := #[]
  lists := #[]
  maps := #[]
  current := globalScope
  frames := []
  output := ""
  lastValue := .nil
  clock := clock
  readings := 0

section Objects

/-- The elements of a list. -/
def list (m : Machine) (id : ListId) : Sequence :=
  m.lists[id]?.getD #[]

/-- The entries of a map. -/
def map (m : Machine) (id : MapId) : Dictionary :=
  m.maps[id]?.getD []

/-- Replace the elements of a list. -/
def setList (m : Machine) (id : ListId) (elements : Sequence) : Machine :=
  { m with lists := m.lists.setIfInBounds id elements }

/-- Replace the entries of a map. -/
def setMap (m : Machine) (id : MapId) (entries : Dictionary) : Machine :=
  { m with maps := m.maps.setIfInBounds id entries }

/-- Take the elements out of a list, which is left empty. -/
@[noinline] def takeList (m : Machine) (id : ListId) : Sequence × Machine :=
  (m.list id, m.setList id #[])

/-- Operate on the elements of a list, which are taken out of the machine meanwhile. -/
def onList
    {α : Type}
    (m : Machine)
    (id : ListId)
    (operation : Sequence → Attempt Sequence α) :
    Attempt Machine α :=
  let (elements, m) := m.takeList id
  let (result, elements) := operation elements
  (result, m.setList id elements)

/-- Operate on the entries of a map. -/
def onMap
    {α : Type}
    (m : Machine)
    (id : MapId)
    (operation : Dictionary → Attempt Dictionary α) :
    Attempt Machine α :=
  let (result, entries) := operation (m.map id)
  (result, m.setMap id entries)

/-- Store a value in the binding of a name as seen from a scope. -/
def assign (m : Machine) (scope : ScopeId) (name : String) (value : Value) : Attempt Machine Unit :=
  let (result, scopes) := m.scopes.assign scope name value
  (result, { m with scopes := scopes })

/-- Make a list. -/
def newList (m : Machine) (elements : Sequence) : Value × Machine :=
  (.list m.lists.size, { m with lists := m.lists.push elements })

/-- Make a map. -/
def newMap (m : Machine) (entries : Dictionary) : Value × Machine :=
  (.map m.maps.size, { m with maps := m.maps.push entries })

/-- Make a function. -/
def newFunction (m : Machine) (f : FunctionObject) : FunctionId × Machine :=
  (m.functions.size, { m with functions := m.functions.push f })

/-- Make a method. -/
def newMethod (m : Machine) (f : MethodObject) : MethodId × Machine :=
  (m.methods.size, { m with methods := m.methods.push f })

/-- Make a native function. -/
def newNative (m : Machine) (f : NativeObject) : Value × Machine :=
  (.native m.natives.size, { m with natives := m.natives.push f })

/-- Make a class. -/
def newClass (m : Machine) (c : ClassObject) : ClassId × Machine :=
  (m.classes.size, { m with classes := m.classes.push c })

/-- Make an instance without fields. -/
def newInstance (m : Machine) (classId : ClassId) : InstanceId × Machine :=
  (m.instances.size, { m with instances := m.instances.push ⟨classId, []⟩ })

/-- Make a scope inside another one. -/
def newScope (m : Machine) (parent : ScopeId) : ScopeId × Machine :=
  let (scopes, id) := m.scopes.create ⟨some parent, []⟩
  (id, { m with scopes := scopes })

/-- Create or overwrite a binding of a scope. -/
def define (m : Machine) (scope : ScopeId) (b : Binding) : Machine :=
  { m with scopes := m.scopes.define scope b }

end Objects

section Names

/-- The name of a class. -/
def className (m : Machine) (id : ClassId) : String :=
  (m.classes[id]?.map (·.name)).getD ""

/-- The name of a method. -/
def methodName (m : Machine) (id : MethodId) : String :=
  (m.methods[id]?.map (·.name)).getD ""

/-- The name of a method with the class that declared it. -/
def methodQualifiedName (m : Machine) (id : MethodId) : String :=
  match m.methods[id]? with
  | some f => s!"{m.className f.owner}.{f.name}"
  | none => ""

/-- The number of parameters of a method. -/
def methodArity (m : Machine) (id : MethodId) : Nat :=
  (m.methods[id]?.map (·.params.length)).getD 0

/-- The name of a function; a bound method has the name of its method. -/
def functionName (m : Machine) (id : FunctionId) : String :=
  match m.functions[id]? with
  | some (.closure name ..) => name
  | some (.bound _ method) => m.methodName method
  | none => ""

/-- The name of a function; a bound method is named with the class that declared it. -/
def functionQualifiedName (m : Machine) (id : FunctionId) : String :=
  match m.functions[id]? with
  | some (.closure name ..) => name
  | some (.bound _ method) => m.methodQualifiedName method
  | none => ""

/-- The number of parameters of a function or bound method. -/
def functionArity (m : Machine) (id : FunctionId) : Nat :=
  match m.functions[id]? with
  | some (.closure _ params ..) => params.length
  | some (.bound _ method) => m.methodArity method
  | none => 0

/-- The name of the class of an instance. -/
def instanceClassName (m : Machine) (id : InstanceId) : String :=
  match m.instances[id]? with
  | some i => m.className i.classId
  | none => ""

/-- The method of this name of a class: its own, or the one of the nearest class above it. A
superclass is older than its subclasses. -/
def findMethod? (m : Machine) (id : ClassId) (name : String) : Option MethodId :=
  match m.classes[id]? with
  | none => none
  | some c =>
      match c.methods.lookup name with
      | some method => some method
      | none =>
          match c.superclass with
          | none => none
          | some parent => if parent < id then m.findMethod? parent name else none
termination_by id

/-- The method of this name of an instance: the one of its class. -/
def instanceMethod? (m : Machine) (id : InstanceId) (name : String) : Option MethodId :=
  m.instances[id]?.bind fun i => m.findMethod? i.classId name

end Names

end Machine

end Lox
