import Lox.Machine

/-!
# The text of values

`Machine.text` is what a program prints. A list or map that is met inside itself is abbreviated,
so the text is finite for every store; every other occurrence is written in full. `Machine.debug`
is the form for listings, in which texts are quoted and numbers read back.
-/

namespace Lox.Machine

variable (m : Machine)

/-- The number of lists and maps: no value nests more of them without meeting one again. -/
def containers : Nat :=
  m.lists.size + m.maps.size

/-- The text of a value inside the containers `open_`, which are being written. The number bounds
the nesting. -/
def textWithin : Nat → List Value → Value → String
  | 0, _, _ => ""
  | depth + 1, open_, v =>
      match v with
      | .nil => "nil"
      | .boolean b => if b then "true" else "false"
      | .number x => Number.text x
      | .string s => s
      | .function id => s!"<fn {m.functionName id}>"
      | .native id =>
          let name := (m.natives[id]?.map (·.name)).getD ""
          s!"<native fn {name}>"
      | .class id => s!"<class {m.className id}>"
      | .instance id => s!"<{m.instanceClassName id} instance>"
      | .list id =>
          if v ∈ open_ then
            "[...]"
          else
            let parts := (m.list id).toList.map (textWithin depth (v :: open_))
            "[" ++ ", ".intercalate parts ++ "]"
      | .map id =>
          if v ∈ open_ then
            "\x7b...\x7d"
          else
            let parts := (m.map id).map fun entry =>
              textWithin depth (v :: open_) entry.1.toValue ++ ": " ++
                textWithin depth (v :: open_) entry.2
            "\x7b" ++ ", ".intercalate parts ++ "\x7d"

/-- The text that a program prints for a value. -/
def text (v : Value) : String :=
  m.textWithin (m.containers + 1) [] v

/-- Quoted names in brackets. -/
def quotedNames (names : List String) : String :=
  "[" ++ ", ".intercalate (names.map Text.quoted) ++ "]"

/-- The debug form of a value inside the containers `open_`, which are being written. The number
bounds the nesting. -/
def debugWithin : Nat → List Value → Value → String
  | 0, _, _ => ""
  | depth + 1, open_, v =>
      match v with
      | .nil => "None"
      | .boolean b => if b then "True" else "False"
      | .number x => Number.literalText x
      | .string s => Text.quoted s
      | .function id =>
          let name := Text.quoted (m.functionQualifiedName id)
          match m.functions[id]? with
          | some (.bound receiver _) =>
              s!"BoundMethod({name}, receiver={debugWithin depth open_ (.instance receiver)})"
          | _ => s!"LoxFunction({name}, arity={m.functionArity id})"
      | .native id =>
          match m.natives[id]? with
          | some f => s!"NativeFunction({Text.quoted f.name}, arity={f.arity})"
          | none => ""
      | .class id =>
          match m.classes[id]? with
          | some c =>
              let parent :=
                match c.superclass with
                | some parent => Text.quoted (m.className parent)
                | none => "None"
              let methods := quotedNames (c.methods.map (·.1))
              s!"LoxClass({Text.quoted c.name}, superclass={parent}, methods={methods})"
          | none => ""
      | .instance id =>
          let name := Text.quoted (m.instanceClassName id)
          let fields := quotedNames (((m.instances[id]?.map (·.fields)).getD []).map (·.1))
          s!"LoxInstance({name}, fields={fields})"
      | .list id =>
          if v ∈ open_ then
            "LoxList([...])"
          else
            let parts := (m.list id).toList.map (debugWithin depth (v :: open_))
            "LoxList([" ++ ", ".intercalate parts ++ "])"
      | .map id =>
          if v ∈ open_ then
            "LoxMap(\x7b...\x7d)"
          else
            let parts := (m.map id).map fun entry =>
              debugWithin depth (v :: open_) entry.1.toValue ++ ": " ++
                debugWithin depth (v :: open_) entry.2
            "LoxMap(\x7b" ++ ", ".intercalate parts ++ "\x7d)"

/-- The debug form of a value. -/
def debug (v : Value) : String :=
  m.debugWithin (m.containers + 2) [] v

end Lox.Machine
