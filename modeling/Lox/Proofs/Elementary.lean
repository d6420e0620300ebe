import Lox.Proofs.Quiet
import Lox.Session

/-!
# Elementary operations

What is done without running code of the program is *elementary*: it takes the machine a step of some
kind, it throws no value, and if it fails, no statement has traced the fault and no label is without a
caption. What the operations are is said once, for all kinds of steps that allow for them
(`Eval.Operating`, `Eval.Declaring`).
-/

namespace Lox

section Texts

theorem append_ne_empty {text more : String} (h : text ≠ "") : text ++ more ≠ "" :=
  fun happend => h (String.append_eq_empty_iff.mp happend).1

theorem append_ne_empty_right {text more : String} (h : more ≠ "") : text ++ more ≠ "" :=
  fun happend => h (String.append_eq_empty_iff.mp happend).2

theorem Fault.message_ne (fault : Fault) : fault.message ≠ "" := by
  cases fault with
  | arity name expected actual =>
      refine append_ne_empty (append_ne_empty_right ?_)
      decide
  | _ => repeat first | decide | refine append_ne_empty ?_

end Texts

/-- A failure has no label without a caption. -/
def Failure.IsCaptioned (f : Failure) : Prop :=
  ∀ label ∈ f.label, label.2 ≠ ""

theorem Failure.isCaptioned_locate
    {f : Failure}
    (h : f.IsCaptioned)
    (span : Span) :
    (f.locate span).IsCaptioned := by
  unfold Failure.locate
  split
  · exact h
  · rintro _ ⟨⟩
    exact Fault.message_ne _

/-- No value was thrown. A fault is not traced yet, and it has no label without a caption. -/
def Interruption.IsBare : Interruption → Prop
  | thrown _ => False
  | failed f => f.trace = [] ∧ f.IsCaptioned
  | exhausted | outOfFuel => True

namespace Eval

/-- The operation takes the machine a step further, and nothing that stops it has been traced. -/
structure Elementary {α : Type} (step : Machine → Machine → Prop) (c : Eval α) : Prop where
  steps : c.Steps step
  bare : ∀ m why n, c m = .stopped why n → why.IsBare

namespace Elementary

variable {α β : Type} {step : Machine → Machine → Prop} {c : Eval α}

section Rules

/-- An operation that never stops. -/
theorem of_done (hsteps : c.Steps step) (hdone : ∀ m, ∃ a n, c m = .done a n) :
    Elementary step c where
  steps := hsteps
  bare m why n h := by
    obtain ⟨a, n', hdone⟩ := hdone m
    rw [hdone] at h
    cases h

theorem update {change : Machine → Machine} (h : ∀ m, step m (change m)) :
    Elementary step (Eval.update change) :=
  of_done h fun m => ⟨(), change m, rfl⟩

theorem make {maker : Machine → α × Machine} (h : ∀ m, step m (maker m).2) :
    Elementary step (Eval.make maker) :=
  of_done h fun m => ⟨(maker m).1, (maker m).2, rfl⟩

theorem locating (hc : Elementary step c) (span : Span) :
    Elementary step (Eval.locating span c) where
  steps := hc.steps.locating span
  bare m why n h := by
    unfold Eval.locating at h
    split at h
    · next f n' hm =>
        obtain ⟨htrace, hcaption⟩ : f.trace = [] ∧ f.IsCaptioned := hc.bare m _ _ hm
        cases h
        refine ⟨?_, Failure.isCaptioned_locate hcaption span⟩
        unfold Failure.locate
        split <;> exact htrace
    · exact hc.bare m why n h

variable [IsPreorder Machine step]

theorem pure (a : α) : Elementary step (pure a : Eval α) :=
  of_done (.pure a) fun m => ⟨a, m, rfl⟩

theorem ask (question : Machine → α) : Elementary step (Eval.ask question) :=
  of_done (.ask question) fun m => ⟨question m, m, rfl⟩

theorem stop {why : Interruption} (h : why.IsBare) :
    Elementary step (Eval.stop why : Eval α) where
  steps := .stop why
  bare _ _ _ heq := by
    cases heq
    exact h

theorem fail (fault : Fault) : Elementary step (Eval.fail fault : Eval α) :=
  stop ⟨rfl, nofun⟩

theorem failAt (span : Span) {caption : String} (h : caption ≠ "") (fault : Fault) :
    Elementary step (Eval.failAt span caption fault : Eval α) :=
  stop ⟨rfl, by
    rintro _ ⟨⟩
    exact h⟩

theorem ofExcept (result : Except Fault α) : Elementary step (Eval.ofExcept result) := by
  cases result with
  | ok a => exact pure a
  | error fault => exact fail fault

/-- An answer that is a fault or a result. -/
theorem consult (question : Machine → Except Fault α) :
    Elementary step fun m => Eval.ofExcept (question m) m where
  steps m := (ofExcept (question m) : Elementary step _).steps m
  bare m := (ofExcept (question m) : Elementary step _).bare m

theorem attempt
    {operation : Machine → Attempt Machine α}
    (h : ∀ m, step m (operation m).2) :
    Elementary step (Eval.attempt operation) where
  steps := .attempt h
  bare m := (ofExcept (operation m).1 : Elementary step _).bare (operation m).2

theorem bind
    {f : α → Eval β}
    (hc : Elementary step c)
    (hf : ∀ a, Elementary step (f a)) :
    Elementary step (c >>= f) where
  steps := hc.steps.bind fun a => (hf a).steps
  bare m why n h := by
    rw [bind_apply] at h
    cases hm : c m with
    | done a n' =>
        rw [hm] at h
        exact (hf a).bare n' why n h
    | stopped why' n' =>
        rw [hm] at h
        cases h
        exact hc.bare m why n hm

/-- The result of a binary operator. Division by zero is reported at the divisor. -/
theorem ofOperator (right : Span) (result : Except Fault Value) :
    Elementary step
      (match result with
      | .ok v => Pure.pure v
      | .error .divisionByZero => Eval.failAt right "divisor is zero" .divisionByZero
      | .error .moduloByZero => Eval.failAt right "divisor is zero" .moduloByZero
      | .error fault => Eval.fail fault) := by
  split
  · exact pure _
  · exact failAt right (by decide) _
  · exact failAt right (by decide) _
  · exact fail _

end Rules

end Elementary

/-- The operations on values are steps: they print, read the clock, change collections and make new
ones, bind methods to instances and keep the value of a statement. -/
class Operating (step : Machine → Machine → Prop) : Prop extends IsPreorder Machine step where
  contents : ∀ (m : Machine) lists maps natives output readings,
    step m
      { m with
        lists := lists
        maps := maps
        natives := natives
        output := output
        readings := readings }
  bindMethod : ∀ (m : Machine) receiver method, step m (m.newFunction (.bound receiver method)).2
  lastValue : ∀ (m : Machine) v, step m { m with lastValue := v }

/-- Declarations are steps as well: they bind names in the current scope, and make functions, methods
and classes. -/
class Declaring (step : Machine → Machine → Prop) : Prop extends Operating step where
  define : ∀ (m : Machine) b, step m (m.define m.current b)
  newClosure : ∀ (m : Machine) name params body scope,
    step m (m.newFunction (.closure name params body scope)).2
  bindSuper : ∀ (m : Machine) superclass,
    step m ((m.newScope m.current).2.define (m.newScope m.current).1
      ⟨"super", .class superclass, false⟩)
  newMethod : ∀ (m : Machine) (d : FunctionDecl) scope owner,
    step m (m.newMethod ⟨d.name, d.params, d.body, scope, owner, d.name == "init"⟩).2
  newClass : ∀ (m : Machine) c, step m (m.newClass c).2

/-- Quiet steps include the operations on values. -/
theorem Operating.of_quiet
    {step : Machine → Machine → Prop}
    [IsPreorder Machine step]
    (h : ∀ {m n : Machine}, m.Quiet n → step m n) :
    Operating step where
  contents _ _ _ _ _ _ := h (.of_eq rfl rfl rfl rfl rfl rfl)
  bindMethod m receiver method := h (.newFunction_bound m receiver method)
  lastValue _ _ := h (.of_eq rfl rfl rfl rfl rfl rfl)

instance : Operating Machine.Quiet :=
  .of_quiet id

namespace Elementary

variable {α : Type} {step : Machine → Machine → Prop}

section Operations

variable [Operating step]

section Collections

theorem onList (id : ListId) (operation : Sequence → Attempt Sequence α) :
    Elementary step (Eval.attempt fun m => m.onList id operation) :=
  attempt fun m => Operating.contents m _ m.maps m.natives m.output m.readings

theorem onMap (id : MapId) (operation : Dictionary → Attempt Dictionary α) :
    Elementary step (Eval.attempt fun m => m.onMap id operation) :=
  attempt fun m => Operating.contents m m.lists _ m.natives m.output m.readings

theorem newList (elements : Machine → Sequence) :
    Elementary step (Eval.make fun m => m.newList (elements m)) :=
  make fun m => Operating.contents m _ m.maps m.natives m.output m.readings

theorem newMap (entries : Dictionary) : Elementary step (Eval.make fun m => m.newMap entries) :=
  make fun m => Operating.contents m m.lists _ m.natives m.output m.readings

theorem newNative (f : NativeObject) : Elementary step (Eval.make fun m => m.newNative f) :=
  make fun m => Operating.contents m m.lists m.maps _ m.output m.readings

theorem item (object index : Value) : Elementary step (Eval.item object index) := by
  cases object with
  | list id => exact consult fun m => Sequence.item (m.list id) index
  | map id => exact consult fun m => Dictionary.item (m.map id) index
  | nil | boolean | number | string | function | native | «class» | «instance» => exact fail _

theorem setItem (object index v : Value) : Elementary step (Eval.setItem object index v) := by
  cases object with
  | list id => exact onList id (Sequence.setItem index v)
  | map id => exact onMap id (Dictionary.setItem index v)
  | nil | boolean | number | string | function | native | «class» | «instance» => exact fail _

end Collections

section Natives

theorem readClock : Elementary step Eval.readClock :=
  of_done (fun m => Operating.contents m m.lists m.maps m.natives m.output _) fun _ => ⟨_, _, rfl⟩

theorem lengthOf (v : Value) : Elementary step (Eval.lengthOf v) := by
  cases v with
  | string s => exact pure _
  | list id => exact ask _
  | map id => exact ask _
  | nil | boolean | number | function | native | «class» | «instance» => exact fail _

theorem callBuiltin (f : Builtin) (arguments : List Value) :
    Elementary step (Eval.callBuiltin f arguments) := by
  unfold Eval.callBuiltin
  split
  · exact readClock
  · exact pure _
  · exact ask _
  · exact lengthOf _
  · exact pure _

theorem callListMethod (list : ListId) (method : ListMethod) (arguments : List Value) :
    Elementary step (Eval.callListMethod list method arguments) := by
  unfold Eval.callListMethod
  split
  · exact onList list _
  · exact onList list _
  · exact onList list _
  · exact onList list _
  · exact ask _
  · exact ask _
  · exact ask _
  · exact onList list _
  · exact pure _

theorem callMapMethod (map : MapId) (method : MapMethod) (arguments : List Value) :
    Elementary step (Eval.callMapMethod map method arguments) := by
  fun_cases Eval.callMapMethod map method arguments
  · exact consult _
  · exact consult _
  · exact onMap map _
  · exact newList _
  · exact newList _
  · exact ask _
  · exact onMap map _
  · exact pure _

theorem callNative (id : NativeId) (arguments : List Value) :
    Elementary step (Eval.callNative id arguments) := by
  refine bind (ask _) fun f => ?_
  cases f with
  | none => exact pure _
  | some f =>
      cases f with
      | builtin f => exact callBuiltin f arguments
      | listMethod list method => exact callListMethod list method arguments
      | mapMethod map method => exact callMapMethod map method arguments

end Natives

section Objects

theorem lookup (name : String) : Elementary step (Eval.lookup name) :=
  consult fun m => m.scopes.value m.current name

theorem bindMethod (receiver : InstanceId) (method : MethodId) :
    Elementary step (do
      return Value.function (← Eval.make fun m => m.newFunction (.bound receiver method))) :=
  bind (make fun m => Operating.bindMethod m receiver method) fun _ => pure _

theorem property (object : Value) (name : String) :
    Elementary step (Eval.property object name) := by
  cases object with
  | «instance» id =>
      refine bind (ask _) fun field => ?_
      cases field with
      | some v => exact pure v
      | none =>
          refine bind (ask _) fun found => ?_
          cases found with
          | some method => exact bindMethod id method
          | none => exact bind (ask _) fun _ => fail _
  | list id =>
      simp only [Eval.property, Eval.listProperty]
      split
      · exact newNative _
      · exact fail _
  | map id =>
      simp only [Eval.property, Eval.mapProperty]
      split
      · exact newNative _
      · exact fail _
  | nil | boolean | number | string | function | native | «class» => exact fail _

theorem evaluateSuper (method : String) : Elementary step (Eval.evaluateSuper method) := by
  refine bind (lookup "super") fun parent => bind (lookup "this") fun receiver => ?_
  split
  · refine bind (ask _) fun found => ?_
    cases found with
    | some id => exact bindMethod _ id
    | none => exact fail _
  · exact fail _

end Objects

section Output

theorem printLine (line : String) : Elementary step (Eval.printLine line) :=
  update fun m => Operating.contents m m.lists m.maps m.natives _ m.readings

theorem keepValue (v : Value) : Elementary step (Eval.update fun m => { m with lastValue := v }) :=
  update fun m => Operating.lastValue m v

theorem dumpBindings : Elementary step Eval.dumpBindings :=
  bind (ask _) fun _ =>
    bind (update fun m => Operating.contents m m.lists m.maps m.natives _ m.readings) fun _ =>
      pure _

theorem echoValue (s : Stmt) : Elementary step (Eval.echoValue s) := by
  cases s with
  | expression e span => exact bind (ask _) fun _ => printLine _
  | print | declare | block | ifElse | whileLoop | doWhile | forLoop | breakLoop | continueLoop
  | function | returnValue | classDecl | tryBlock | throwValue | dump => exact pure _

end Output

end Operations

section Declarations

variable [Declaring step]

theorem define (name : String) (v : Value) (isConst : Bool) :
    Elementary step (Eval.define name v isConst) :=
  update fun m => Declaring.define m _

theorem makeClosure (name : String) (params : List String) (body : List Stmt) :
    Elementary step (Eval.makeClosure name params body) :=
  bind (ask _) fun scope =>
    bind (make fun m => Declaring.newClosure m name params body scope) fun _ => pure _

theorem declareFunction (d : FunctionDecl) : Elementary step (Eval.declareFunction d) :=
  bind (makeClosure _ _ _) fun _ => bind (define _ _ _) fun _ => pure _

theorem makeMethods
    (owner : ClassId)
    (scope : ScopeId)
    (methods : List FunctionDecl)
    (table : List (String × MethodId)) :
    Elementary step (Eval.makeMethods owner scope methods table) := by
  induction methods generalizing table with
  | nil => exact pure table
  | cons d rest ih => exact bind (make fun m => Declaring.newMethod m d scope owner) fun _ => ih _

theorem classScope (parent : Option ClassId) : Elementary step (Eval.classScope parent) := by
  cases parent with
  | none => exact ask _
  | some parent => exact of_done (fun m => Declaring.bindSuper m parent) fun _ => ⟨_, _, rfl⟩

theorem defineClass (name : String) (parent : Option ClassId) (methods : List FunctionDecl) :
    Elementary step (Eval.defineClass name parent methods) := by
  refine bind (define _ _ _) fun _ => bind (classScope parent) fun scope => ?_
  refine bind (ask _) fun owner => bind (makeMethods owner scope methods []) fun table => ?_
  exact bind (make fun m => Declaring.newClass m ⟨name, parent, table⟩) fun _ =>
    bind (define _ _ _) fun _ => pure _

end Declarations

end Elementary

end Eval

/-- The same calls are active. -/
def Machine.SameFrames (m n : Machine) : Prop :=
  n.frames = m.frames

namespace Machine.SameFrames

instance : IsPreorder Machine Machine.SameFrames where
  refl _ := rfl
  trans _ _ _ h h' := Eq.trans h' h

instance : Eval.Declaring Machine.SameFrames where
  contents _ _ _ _ _ _ := rfl
  bindMethod _ _ _ := rfl
  lastValue _ _ := rfl
  define _ _ := rfl
  newClosure _ _ _ _ _ := rfl
  bindSuper _ _ := rfl
  newMethod _ _ _ _ := rfl
  newClass _ _ := rfl

end Machine.SameFrames

namespace Eval.Elementary

theorem assign (name : String) (v : Value) :
    Elementary Machine.SameFrames (Eval.assign name v) :=
  attempt fun _ => rfl

theorem setField (id : InstanceId) (name : String) (v : Value) :
    Elementary Machine.SameFrames (Eval.setField id name v) :=
  update fun _ => rfl

theorem enterCopy (scope : ScopeId) : Elementary Machine.SameFrames (Eval.enterCopy scope) :=
  of_done (fun _ => rfl) fun _ => ⟨_, _, rfl⟩

end Eval.Elementary

end Lox
