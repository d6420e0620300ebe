import Lox.Proofs.Tree.Relocation
import Lox.Session

/-!
# Places do not matter to a run

A program and a machine hold places: the spans of the code, also of the code that functions keep,
and the places that active calls were made from. A relocated program does on a relocated machine
what the program does on the machine, relocated: `Relocates` says so of two computations, and the
rules here show it of what computations are built from.
-/

namespace Lox

section Instances

instance : Relocatable Nat := ⟨fun _ a => a⟩

instance : Relocatable Value := ⟨fun _ a => a⟩

instance : Relocatable NativeObject := ⟨fun _ a => a⟩

instance : Relocatable FunctionObject :=
  ⟨fun r f =>
    match f with
    | .closure name params body scope => .closure name params (move r body) scope
    | .bound receiver method => .bound receiver method⟩

instance : Relocatable MethodObject :=
  ⟨fun r f => { f with body := move r f.body }⟩

instance : Relocatable Frame :=
  ⟨fun r frame => { frame with callSite := move r frame.callSite }⟩

instance : Relocatable TraceEntry :=
  ⟨fun r entry => { entry with site := move r entry.site }⟩

instance : Relocatable Thrown :=
  ⟨fun r t => { t with trace := move r t.trace, span := move r t.span }⟩

instance : Relocatable Failure :=
  ⟨fun r f => { f with label := move r f.label, trace := move r f.trace }⟩

instance : Relocatable Interruption :=
  ⟨fun r why =>
    match why with
    | .thrown t => .thrown (move r t)
    | .failed f => .failed (move r f)
    | .exhausted => .exhausted
    | .outOfFuel => .outOfFuel⟩

instance : Relocatable Signal :=
  ⟨fun r signal =>
    match signal with
    | .thrown t => .thrown (move r t)
    | signal => signal⟩

instance : Relocatable Machine :=
  ⟨fun r m =>
    { m with
      functions := m.functions.map (move r)
      methods := m.methods.map (move r)
      frames := move r m.frames }⟩

instance {α : Type} [Relocatable α] : Relocatable (Outcome α) :=
  ⟨fun r outcome =>
    match outcome with
    | .done a m => .done (move r a) (move r m)
    | .stopped why m => .stopped (move r why) (move r m)⟩

end Instances

section Equations

variable (r : Relocation)

@[simp] theorem Nat.move_eq : (move r : Nat → Nat) = id :=
  rfl

@[simp] theorem Value.move_eq : (move r : Value → Value) = id :=
  rfl

@[simp] theorem NativeObject.move_eq : (move r : NativeObject → NativeObject) = id :=
  rfl

@[simp] theorem Unit.move_eq : (move r : Unit → Unit) = id :=
  rfl

end Equations

namespace Machine

variable (r : Relocation) (m : Machine)

section Questions

theorem functions_move (id : FunctionId) :
    (move r m).functions[id]? = move r m.functions[id]? :=
  Array.getElem?_map

theorem methods_move (id : MethodId) : (move r m).methods[id]? = move r m.methods[id]? :=
  Array.getElem?_map

theorem methodName_move (id : MethodId) : (move r m).methodName id = m.methodName id := by
  rw [methodName, methods_move, methodName]
  cases m.methods[id]? <;> rfl

theorem methodArity_move (id : MethodId) : (move r m).methodArity id = m.methodArity id := by
  rw [methodArity, methods_move, methodArity]
  cases m.methods[id]? <;> rfl

theorem methodQualifiedName_move (id : MethodId) :
    (move r m).methodQualifiedName id = m.methodQualifiedName id := by
  rw [methodQualifiedName, methods_move, methodQualifiedName]
  cases m.methods[id]? <;> rfl

theorem functionName_move (id : FunctionId) :
    (move r m).functionName id = m.functionName id := by
  rw [functionName, functions_move, functionName]
  match m.functions[id]? with
  | some (.closure ..) => rfl
  | some (.bound _ method) => exact methodName_move r m method
  | none => rfl

theorem functionArity_move (id : FunctionId) :
    (move r m).functionArity id = m.functionArity id := by
  rw [functionArity, functions_move, functionArity]
  match m.functions[id]? with
  | some (.closure ..) => rfl
  | some (.bound _ method) => exact methodArity_move r m method
  | none => rfl

theorem functionQualifiedName_move (id : FunctionId) :
    (move r m).functionQualifiedName id = m.functionQualifiedName id := by
  rw [functionQualifiedName, functions_move, functionQualifiedName]
  match m.functions[id]? with
  | some (.closure ..) => rfl
  | some (.bound _ method) => exact methodQualifiedName_move r m method
  | none => rfl

theorem findMethod?_move (id : ClassId) (name : String) :
    (move r m).findMethod? id name = m.findMethod? id name := by
  induction id using Nat.strongRecOn with
  | ind id ih =>
      have hclasses : (move r m).classes = m.classes := rfl
      rw [findMethod?, findMethod?, hclasses]
      cases m.classes[id]? with
      | none => rfl
      | some c =>
          cases hfound : c.methods.lookup name with
          | some method => simp only [hfound]
          | none =>
              cases hparent : c.superclass with
              | none => simp only [hfound, hparent]
              | some parent =>
                  simp only [hfound, hparent]
                  split
                  · next hlt => exact ih parent hlt
                  · rfl

theorem instanceMethod?_move (id : InstanceId) (name : String) :
    (move r m).instanceMethod? id name = m.instanceMethod? id name := by
  unfold instanceMethod?
  simp only [findMethod?_move]
  rfl

theorem textWithin_move (depth : Nat) (open_ : List Value) (v : Value) :
    (move r m).textWithin depth open_ v = m.textWithin depth open_ v := by
  induction depth generalizing open_ v with
  | zero => rfl
  | succ depth ih =>
      have hwithin : (move r m).textWithin depth = m.textWithin depth := by
        funext open_ v
        exact ih open_ v
      cases v with
      | function id => simp only [textWithin, functionName_move]
      | list id => simp only [textWithin, hwithin]; rfl
      | map id => simp only [textWithin, hwithin]; rfl
      | _ => rfl

theorem text_move (v : Value) : (move r m).text v = m.text v :=
  textWithin_move r m _ [] v

end Questions

section Objects

theorem newFunction_move (f : FunctionObject) :
    (move r m).newFunction (move r f) = move r (m.newFunction f) := by
  simp [newFunction, Relocatable.move]

theorem newMethod_move (f : MethodObject) :
    (move r m).newMethod (move r f) = move r (m.newMethod f) := by
  simp [newMethod, Relocatable.move]

end Objects

end Machine

/-- On a relocated machine the second computation does what the first one does, relocated. -/
def Relocates
    {α : Type}
    [Relocatable α]
    (r : Relocation)
    (p p' : Eval α) :
    Prop :=
  ∀ m, p' (move r m) = move r (p m)

namespace Relocates

open Eval

variable {α β : Type} [Relocatable α] [Relocatable β]
variable {r : Relocation} {p p' : Eval α}

section Primitives

theorem pure {a a' : α} (h : a' = move r a) :
    Relocates r (Pure.pure a : Eval α) (Pure.pure a') :=
  fun _ => h ▸ rfl

theorem bind
    {f f' : α → Eval β}
    (hp : Relocates r p p')
    (hf : ∀ a, Relocates r (f a) (f' (move r a))) :
    Relocates r (p >>= f) (p' >>= f') := by
  intro m
  change (match p' (move r m) with | .done a m => f' a m | .stopped why m => .stopped why m) = _
  rw [hp m]
  change _ = move r (match p m with | .done a m => f a m | .stopped why m => .stopped why m)
  cases p m with
  | done a m => exact hf a m
  | stopped why m => rfl

theorem stop {why why' : Interruption} (h : why' = move r why) :
    Relocates r (Eval.stop why : Eval α) (Eval.stop why') :=
  fun _ => h ▸ rfl

theorem fail (fault : Fault) : Relocates r (Eval.fail fault : Eval α) (Eval.fail fault) :=
  stop rfl

theorem failAt (span : Span) (caption : String) (fault : Fault) :
    Relocates r (Eval.failAt span caption fault : Eval α)
      (Eval.failAt (r.span span) caption fault) :=
  stop rfl

theorem ask
    {q q' : Machine → α}
    (h : ∀ m, q' (move r m) = move r (q m)) :
    Relocates r (Eval.ask q) (Eval.ask q') :=
  fun m => congrArg (Outcome.done · (move r m)) (h m)

theorem update
    {change change' : Machine → Machine}
    (h : ∀ m, change' (move r m) = move r (change m)) :
    Relocates r (Eval.update change) (Eval.update change') :=
  fun m => congrArg (Outcome.done ()) (h m)

theorem make
    {f f' : Machine → α × Machine}
    (h : ∀ m, f' (move r m) = move r (f m)) :
    Relocates r (Eval.make f) (Eval.make f') :=
  fun m => congrArg (fun answer : α × Machine => Outcome.done answer.1 answer.2) (h m)

theorem ofExcept {result result' : Except Fault α} (h : result' = result.map (move r)) :
    Relocates r (Eval.ofExcept result) (Eval.ofExcept result') := by
  subst h
  cases result with
  | ok a => exact pure rfl
  | error fault => exact fail fault

theorem map_value (result : Except Fault Value) : result.map (move r) = result := by
  cases result <;> rfl

/-- A result that holds no place. -/
theorem ofValue (result : Except Fault Value) :
    Relocates r (Eval.ofExcept result) (Eval.ofExcept result) :=
  ofExcept (map_value result).symm

theorem attempt
    {operation operation' : Machine → Attempt Machine α}
    (h : ∀ m, operation' (move r m) =
      ((operation m).1.map (move r), move r (operation m).2)) :
    Relocates r (Eval.attempt operation) (Eval.attempt operation') := by
  intro m
  unfold Eval.attempt
  rw [h m]
  exact ofExcept rfl (operation m).2

theorem printLine (line : String) : Relocates r (Eval.printLine line) (Eval.printLine line) :=
  update fun _ => rfl

theorem define (name : String) (value : Value) (isConst : Bool) :
    Relocates r (Eval.define name value isConst) (Eval.define name value isConst) :=
  update fun _ => rfl

theorem defineIn (scope : ScopeId) (b : Binding) :
    Relocates r (Eval.update fun m => m.define scope b) (Eval.update fun m => m.define scope b) :=
  update fun _ => rfl

theorem lookup (name : String) : Relocates r (Eval.lookup name) (Eval.lookup name) :=
  fun m => ofValue (m.scopes.value m.current name) m

theorem map_unit (result : Except Fault Unit) : result.map (move r) = result := by
  cases result <;> rfl

theorem assign (name : String) (value : Value) :
    Relocates r (Eval.assign name value) (Eval.assign name value) := by
  refine attempt fun m => ?_
  rw [map_unit]
  rfl

end Primitives

section Brackets

theorem inScope (scope : ScopeId) (hp : Relocates r p p') :
    Relocates r (Eval.inScope scope p) (Eval.inScope scope p') := by
  intro m
  have h := hp { m with current := scope }
  unfold Eval.inScope
  change (match p' (move r { m with current := scope }) with | .done a m => _ | .stopped why m => _)
    = _
  rw [h]
  cases p { m with current := scope } <;> rfl

theorem inNewScope
    (parent : ScopeId)
    (bindings : List Binding)
    (hp : Relocates r p p') :
    Relocates r (Eval.inNewScope parent bindings p) (Eval.inNewScope parent bindings p') := by
  refine (make fun _ => rfl).bind fun scope => (update fun m => ?_).bind fun _ => inScope scope hp
  induction bindings generalizing m with
  | nil => rfl
  | cons b bindings ih => exact ih (m.define scope b)

theorem inInnerScope (bindings : List Binding) (hp : Relocates r p p') :
    Relocates r (Eval.inInnerScope bindings p) (Eval.inInnerScope bindings p') :=
  (ask (q := Machine.current) fun _ => rfl).bind fun parent => inNewScope parent bindings hp

theorem inCall {frame frame' : Frame} (hframe : frame' = move r frame) (hp : Relocates r p p') :
    Relocates r (Eval.inCall frame p) (Eval.inCall frame' p') := by
  subst hframe
  intro m
  have h := hp { m with frames := frame :: m.frames }
  unfold Eval.inCall
  change (match p' (move r { m with frames := frame :: m.frames }) with
    | .done a m => _ | .stopped why m => _) = _
  rw [h]
  cases p { m with frames := frame :: m.frames } with
  | done a m => simp [Relocatable.move, List.map_tail]
  | stopped why m => simp [Relocatable.move, List.map_tail]

end Brackets

section Places

theorem locate_move (f : Failure) (span : Span) :
    (move r f).locate (r.span span) = move r (f.locate span) := by
  obtain ⟨fault, label, trace⟩ := f
  cases label <;> rfl

theorem locating (span : Span) (hp : Relocates r p p') :
    Relocates r (Eval.locating span p) (Eval.locating (r.span span) p') := by
  intro m
  unfold Eval.locating
  rw [hp m]
  cases p m with
  | done a m => rfl
  | stopped why m =>
      cases why with
      | failed f => exact congrArg (fun f => Outcome.stopped (.failed f) (move r m)) (locate_move f span)
      | _ => rfl

theorem stackTrace_move (site : Option Span) (frames : List Frame) :
    stackTrace (move r site) (move r frames) = move r (stackTrace site frames) := by
  induction frames generalizing site with
  | nil => rfl
  | cons frame frames ih => exact congrArg (_ :: ·) (ih frame.callSite)

theorem attachTrace_move (f : Failure) (site : Span) (frames : List Frame) :
    (move r f).attachTrace (r.span site) (move r frames) = move r (f.attachTrace site frames) := by
  obtain ⟨fault, label, trace⟩ := f
  cases trace with
  | nil => exact congrArg (Failure.mk fault _) (stackTrace_move (some site) frames)
  | cons entry trace => rfl

theorem settle
    (catchFaults : Bool)
    (span : Span)
    {p p' : Eval Signal}
    (hp : Relocates r p p') :
    Relocates r (Eval.settle catchFaults span p) (Eval.settle catchFaults (r.span span) p') := by
  intro m
  unfold Eval.settle
  rw [hp m]
  cases p m with
  | done signal m => rfl
  | stopped why m =>
      cases why with
      | thrown t => rfl
      | exhausted => rfl
      | outOfFuel => rfl
      | failed f =>
          have hfailed : move r (Outcome.stopped (α := Signal) (.failed f) m) =
              .stopped (.failed (move r f)) (move r m) :=
            rfl
          rw [hfailed]
          dsimp only
          rw [locate_move]
          generalize f.locate span = f
          have hsite : (((move r f).label.map (·.1)).getD (r.span span)) =
              r.span ((f.label.map (·.1)).getD span) := by
            obtain ⟨fault, label, trace⟩ := f
            cases label <;> rfl
          rw [hsite]
          generalize (f.label.map (·.1)).getD span = site
          have htrace : (move r f).attachTrace (r.span site) (move r m).frames =
              move r (f.attachTrace site m.frames) :=
            attachTrace_move f site m.frames
          rw [htrace]
          generalize f.attachTrace site m.frames = f
          have hkind : (move r f).fault = f.fault := rfl
          rw [hkind]
          split <;> rfl

end Places

end Relocates

end Lox
