import Lox.Proofs.Places

/-!
# Operations and places

The operators, the built-in functions, the methods of lists and maps and the properties of values
are the same wherever the code stands that uses them.
-/

namespace Lox.Relocates

open Eval

variable {r : Relocation}

section Collections

theorem onList (id : ListId) (operation : Sequence → Attempt Sequence Value) :
    Relocates r (Eval.attempt fun m => m.onList id operation)
      (Eval.attempt fun m => m.onList id operation) := by
  refine attempt fun m => ?_
  rw [map_value]
  rfl

theorem onMap (id : MapId) (operation : Dictionary → Attempt Dictionary Value) :
    Relocates r (Eval.attempt fun m => m.onMap id operation)
      (Eval.attempt fun m => m.onMap id operation) := by
  refine attempt fun m => ?_
  rw [map_value]
  rfl

theorem item (object index : Value) :
    Relocates r (Eval.item object index) (Eval.item object index) := by
  cases object with
  | list id => exact fun m => ofValue (Sequence.item (m.list id) index) m
  | map id => exact fun m => ofValue (Dictionary.item (m.map id) index) m
  | _ => exact fail _

theorem setItem (object index value : Value) :
    Relocates r (Eval.setItem object index value) (Eval.setItem object index value) := by
  cases object with
  | list id => exact onList id (Sequence.setItem index value)
  | map id => exact onMap id (Dictionary.setItem index value)
  | _ => exact fail _

end Collections

section Natives

theorem lengthOf (v : Value) : Relocates r (Eval.lengthOf v) (Eval.lengthOf v) := by
  cases v with
  | string s => exact pure rfl
  | list id => exact ask fun _ => rfl
  | map id => exact ask fun _ => rfl
  | _ => exact fail _

theorem callBuiltin (f : Builtin) (arguments : List Value) :
    Relocates r (Eval.callBuiltin f arguments) (Eval.callBuiltin f arguments) := by
  unfold Eval.callBuiltin
  split
  · exact fun _ => rfl
  · exact pure rfl
  · exact ask fun m => congrArg Value.string (Machine.text_move r m _)
  · exact lengthOf _
  · exact pure rfl

theorem callListMethod (list : ListId) (method : ListMethod) (arguments : List Value) :
    Relocates r (Eval.callListMethod list method arguments)
      (Eval.callListMethod list method arguments) := by
  unfold Eval.callListMethod
  split
  · exact onList list _
  · exact onList list _
  · exact onList list _
  · exact onList list _
  · exact ask fun _ => rfl
  · exact ask fun _ => rfl
  · exact ask fun _ => rfl
  · exact onList list _
  · exact pure rfl

theorem newList
    (elements : Machine → Sequence)
    (h : ∀ m, elements (move r m) = elements m) :
    Relocates r (Eval.make fun m => m.newList (elements m))
      (Eval.make fun m => m.newList (elements m)) := by
  refine make fun m => ?_
  rw [h m]
  rfl

theorem callMapMethod (map : MapId) (method : MapMethod) (arguments : List Value) :
    Relocates r (Eval.callMapMethod map method arguments)
      (Eval.callMapMethod map method arguments) := by
  match arguments with
  | [] =>
      cases method with
      | keys => exact newList (fun m => Dictionary.keys (m.map map)) fun _ => rfl
      | values => exact newList (fun m => Dictionary.values (m.map map)) fun _ => rfl
      | length => exact ask fun _ => rfl
      | clear => exact onMap map Dictionary.clear
      | _ => exact pure rfl
  | [k] =>
      cases method with
      | has => exact fun m => ofValue (Dictionary.has (m.map map) k) m
      | remove => exact onMap map (Dictionary.remove k)
      | _ => exact pure rfl
  | [k, v] =>
      cases method with
      | get => exact fun m => ofValue (Dictionary.itemOr (m.map map) k v) m
      | _ => exact pure rfl
  | _ :: _ :: _ :: _ => cases method <;> exact pure rfl

theorem callNative (id : NativeId) (arguments : List Value) :
    Relocates r (Eval.callNative id arguments) (Eval.callNative id arguments) := by
  refine (ask (q := fun m => m.natives[id]?) fun m => ?_).bind fun f => ?_
  · exact Option.map_id'.symm
  · match f with
    | some (.builtin f) => exact callBuiltin f arguments
    | some (.listMethod list method) => exact callListMethod list method arguments
    | some (.mapMethod map method) => exact callMapMethod map method arguments
    | none => exact pure rfl

end Natives

section Properties

theorem instanceProperty (id : InstanceId) (name : String) :
    Relocates r (Eval.instanceProperty id name) (Eval.instanceProperty id name) := by
  refine (ask (q := fun m => m.instances[id]?.bind fun i => i.fields.lookup name)
    fun m => ?_).bind fun field => ?_
  · exact Option.map_id'.symm
  · match field with
    | some value => exact pure rfl
    | none =>
        refine (ask (q := fun m => m.instanceMethod? id name) fun m => ?_).bind fun method => ?_
        · exact (Machine.instanceMethod?_move r m id name).trans Option.map_id'.symm
        · match method with
          | some method =>
              exact (make fun m => Machine.newFunction_move r m (.bound id method)).bind
                fun f => pure rfl
          | none =>
              exact (ask (q := fun m => m.instanceClassName id) fun _ => rfl).bind
                fun owner => fail _

theorem listProperty (id : ListId) (name : String) :
    Relocates r (Eval.listProperty id name) (Eval.listProperty id name) := by
  unfold Eval.listProperty
  split
  · next method _ => exact make fun _ => rfl
  · exact fail _

theorem mapProperty (id : MapId) (name : String) :
    Relocates r (Eval.mapProperty id name) (Eval.mapProperty id name) := by
  unfold Eval.mapProperty
  split
  · next method _ => exact make fun _ => rfl
  · exact fail _

theorem property (object : Value) (name : String) :
    Relocates r (Eval.property object name) (Eval.property object name) := by
  cases object with
  | «instance» id => exact instanceProperty id name
  | list id => exact listProperty id name
  | map id => exact mapProperty id name
  | _ => exact fail _

theorem setField (id : InstanceId) (name : String) (value : Value) :
    Relocates r (Eval.setField id name value) (Eval.setField id name value) :=
  update fun _ => rfl

end Properties

end Lox.Relocates
