import Lox.Eval.Basic

/-!
# Operations on values

What the operators, the built-in functions and the methods of lists and maps do. None of them runs
code of the program.
-/

namespace Lox

section Operators

/-- Arithmetic on two numbers. -/
def BinaryOp.onNumbers (op : BinaryOp) (x y : Float) : Except Fault Value :=
  match op with
  | .add => .ok (.number (x + y))
  | .subtract => .ok (.number (x - y))
  | .multiply => .ok (.number (x * y))
  | .divide => if y == 0.0 then .error .divisionByZero else .ok (.number (x / y))
  | .remainder =>
      if y == 0.0 then .error .moduloByZero else .ok (.number (Number.remainder x y))
  | .power =>
      if x == 0.0 && y < 0.0 then .error .zeroToNegativePower
      else .ok (.number (Number.power x y))
  | .equal => .ok (.boolean (x == y))
  | .notEqual => .ok (.boolean (!(x == y)))
  | .greater => .ok (.boolean (y < x))
  | .greaterEqual => .ok (.boolean (y ≤ x))
  | .less => .ok (.boolean (x < y))
  | .lessEqual => .ok (.boolean (x ≤ y))

/-- The value of a binary operator; operands are never converted. -/
def BinaryOp.apply (op : BinaryOp) (left right : Value) : Except Fault Value :=
  match op, left, right with
  | .equal, a, b => .ok (.boolean (a.equals b))
  | .notEqual, a, b => .ok (.boolean (!a.equals b))
  | op, .number x, .number y => op.onNumbers x y
  | .add, .string s, .string t => .ok (.string (s ++ t))
  | .add, a, b => .error (.addends a.kind b.kind)
  | op, a, b => .error (.operands op.text a.kind b.kind)

/-- The value of a unary operator. -/
def UnaryOp.apply (op : UnaryOp) (operand : Value) : Except Fault Value :=
  match op, operand with
  | .not, v => .ok (.boolean (!v.truthy))
  | .negate, .number x => .ok (.number (-x))
  | .negate, v => .error (.negated v.kind)

/-- Does the left operand decide the value of a logical operator? -/
def LogicalOp.decidedBy (op : LogicalOp) (left : Value) : Bool :=
  match op with
  | .or => left.truthy
  | .and => !left.truthy

end Operators

namespace Eval

section Indexing

/-- The element of a list or map. -/
def item (object index : Value) : Eval Value :=
  match object with
  | .list id => fun m => ofExcept (Sequence.item (m.list id) index) m
  | .map id => fun m => ofExcept (Dictionary.item (m.map id) index) m
  | other => fail (.notIndexable other.kind)

/-- Store an element in a list or map. -/
def setItem (object index value : Value) : Eval Value :=
  match object with
  | .list id => attempt fun m => m.onList id (Sequence.setItem index value)
  | .map id => attempt fun m => m.onMap id (Dictionary.setItem index value)
  | other => fail (.notIndexable other.kind)

end Indexing

section Natives

/-- The number of characters, elements or entries. -/
def lengthOf (v : Value) : Eval Value :=
  match v with
  | .string s => return .ofNat s.length
  | .list id => ask fun m => .ofNat (m.list id).size
  | .map id => ask fun m => .ofNat (m.map id).length
  | other => fail (.lengthOf other.kind)

/-- Read the clock. -/
def readClock : Eval Value :=
  fun m => .done (.number (m.clock m.readings)) { m with readings := m.readings + 1 }

/-- Call a built-in function. -/
def callBuiltin (f : Builtin) (arguments : List Value) : Eval Value :=
  match f, arguments with
  | .clock, [] => readClock
  | .typeOf, [v] => return .string v.kind.name
  | .str, [v] => ask fun m => .string (m.text v)
  | .len, [v] => lengthOf v
  | _, _ => return .nil

/-- Call a method of a list. -/
def callListMethod (list : ListId) (method : ListMethod) (arguments : List Value) : Eval Value :=
  match method, arguments with
  | .add, [v] => attempt fun m => m.onList list (Sequence.add v)
  | .pop, [] => attempt fun m => m.onList list Sequence.pop
  | .insert, [i, v] => attempt fun m => m.onList list (Sequence.insert i v)
  | .removeAt, [i] => attempt fun m => m.onList list (Sequence.removeAt i)
  | .length, [] => ask fun m => .ofNat (m.list list).size
  | .contains, [v] => ask fun m => .boolean (Sequence.indexOf? (m.list list) v).isSome
  | .indexOf, [v] => ask fun m =>
      match Sequence.indexOf? (m.list list) v with
      | some i => .ofNat i
      | none => .number (-1.0)
  | .clear, [] => attempt fun m => m.onList list Sequence.clear
  | _, _ => return .nil

/-- Call a method of a map. -/
def callMapMethod (map : MapId) (method : MapMethod) (arguments : List Value) : Eval Value :=
  match method, arguments with
  | .has, [k] => fun m => ofExcept (Dictionary.has (m.map map) k) m
  | .get, [k, v] => fun m => ofExcept (Dictionary.itemOr (m.map map) k v) m
  | .remove, [k] => attempt fun m => m.onMap map (Dictionary.remove k)
  | .keys, [] => make fun m => m.newList (Dictionary.keys (m.map map))
  | .values, [] => make fun m => m.newList (Dictionary.values (m.map map))
  | .length, [] => ask fun m => .ofNat (m.map map).length
  | .clear, [] => attempt fun m => m.onMap map Dictionary.clear
  | _, _ => return .nil

/-- Call a native function. -/
def callNative (id : NativeId) (arguments : List Value) : Eval Value := do
  match ← ask fun m => m.natives[id]? with
  | some (.builtin f) => callBuiltin f arguments
  | some (.listMethod list method) => callListMethod list method arguments
  | some (.mapMethod map method) => callMapMethod map method arguments
  | none => return .nil

end Natives

section Properties

/-- A property of an instance: a field, otherwise a method, which is bound to the instance anew
every time it is read. -/
def instanceProperty (id : InstanceId) (name : String) : Eval Value := do
  match ← ask fun m => (m.instances[id]?.bind fun i => i.fields.lookup name) with
  | some value => return value
  | none =>
      match ← ask fun m => m.instanceMethod? id name with
      | some method => return .function (← make fun m => m.newFunction (.bound id method))
      | none =>
          let owner ← ask fun m => m.instanceClassName id
          fail (.undefinedProperty name s!"{owner} instance")

/-- A method of a list, made anew every time it is read. -/
def listProperty (id : ListId) (name : String) : Eval Value :=
  match ListMethod.all.find? (·.name == name) with
  | some method => make fun m => m.newNative (.listMethod id method)
  | none => fail (.undefinedProperty name "list")

/-- A method of a map, made anew every time it is read. -/
def mapProperty (id : MapId) (name : String) : Eval Value :=
  match MapMethod.all.find? (·.name == name) with
  | some method => make fun m => m.newNative (.mapMethod id method)
  | none => fail (.undefinedProperty name "map")

/-- A property of a value. -/
def property (object : Value) (name : String) : Eval Value :=
  match object with
  | .instance id => instanceProperty id name
  | .list id => listProperty id name
  | .map id => mapProperty id name
  | other => fail (.noProperties other.kind)

/-- Set the entry of this name; a new entry comes last. -/
def putNamed {α : Type} (name : String) (a : α) : List (String × α) → List (String × α)
  | [] => [(name, a)]
  | entry :: rest => if entry.1 = name then (name, a) :: rest else entry :: putNamed name a rest

/-- Set a field of an instance. -/
def setField (id : InstanceId) (name : String) (value : Value) : Eval Unit :=
  update fun m =>
    { m with
      instances := m.instances.modify id fun i =>
        { i with fields := putNamed name value i.fields } }

end Properties

end Eval

end Lox
