import Lox.Proofs.Heap
import Lox.Session

/-!
# Runs that are checked

The functions of the evaluator give an answer in every case, also in those that are not to happen: when
a reference leads nowhere, when a body is run with more or fewer arguments than it has parameters, when
`super` is bound to something else than a class. A checked run looks for these cases and stops in each
of them. That it goes on as if it did not look, since they do not happen, is shown in
`Lox.Proofs.Checked.Run`.
-/

namespace Lox

section Natives

/-- Has the built-in function a body for these values? -/
def Builtin.accepts : Builtin → List Value → Bool
  | clock, [] => true
  | typeOf, [_] | str, [_] | len, [_] => true
  | _, _ => false

/-- Has the method of lists a body for these values? -/
def ListMethod.accepts : ListMethod → List Value → Bool
  | pop, [] | length, [] | clear, [] => true
  | add, [_] | removeAt, [_] | contains, [_] | indexOf, [_] => true
  | insert, [_, _] => true
  | _, _ => false

/-- Has the method of maps a body for these values? -/
def MapMethod.accepts : MapMethod → List Value → Bool
  | keys, [] | values, [] | length, [] | clear, [] => true
  | has, [_] | remove, [_] => true
  | get, [_, _] => true
  | _, _ => false

/-- Has the native function a body for these values? -/
def NativeObject.accepts : NativeObject → List Value → Bool
  | builtin f => f.accepts
  | listMethod _ method => method.accepts
  | mapMethod _ method => method.accepts

variable {arguments : List Value}

theorem Builtin.accepts_of_arity {f : Builtin} (h : arguments.length = f.arity) :
    f.accepts arguments = true := by
  rcases arguments with _ | ⟨_, _ | ⟨_, _ | ⟨_, _⟩⟩⟩ <;> cases f <;> first | rfl | cases h

theorem ListMethod.accepts_of_arity {f : ListMethod} (h : arguments.length = f.arity) :
    f.accepts arguments = true := by
  rcases arguments with _ | ⟨_, _ | ⟨_, _ | ⟨_, _⟩⟩⟩ <;> cases f <;> first | rfl | cases h

theorem MapMethod.accepts_of_arity {f : MapMethod} (h : arguments.length = f.arity) :
    f.accepts arguments = true := by
  rcases arguments with _ | ⟨_, _ | ⟨_, _ | ⟨_, _⟩⟩⟩ <;> cases f <;> first | rfl | cases h

/-- The body of a native function takes as many values as its arity says. -/
theorem NativeObject.accepts_of_arity {f : NativeObject} (h : arguments.length = f.arity) :
    f.accepts arguments = true := by
  cases f with
  | builtin f => exact Builtin.accepts_of_arity h
  | listMethod list method => exact ListMethod.accepts_of_arity h
  | mapMethod map method => exact MapMethod.accepts_of_arity h

end Natives

namespace Machine

/-- Does the reference lead to an object? -/
def uses (m : Machine) (r : Ref) : Bool :=
  (m.object? r).isSome

/-- Is there such a method, with as many parameters as there are values, and the scope that it
closes over? -/
def methodAccepts (m : Machine) (id : MethodId) (arguments : List Value) : Bool :=
  match m.methods[id]? with
  | some f => m.uses ⟨.scopes, f.scope⟩ && f.params.length == arguments.length
  | none => false

/-- May the value be called with these values? What it refers to must be there, and the parameters of
the body that runs, or of the initializer, must be as many as the values. -/
def accepts (m : Machine) (callee : Value) (arguments : List Value) : Bool :=
  match callee with
  | .function id =>
      match m.functions[id]? with
      | some (.closure _ params _ scope) =>
          m.uses ⟨.scopes, scope⟩ && params.length == arguments.length
      | some (.bound receiver method) =>
          m.uses ⟨.instances, receiver⟩ && m.methodAccepts method arguments
      | none => false
  | .native id =>
      match m.natives[id]? with
      | some f => (Object.native f).refs.all m.uses && f.accepts arguments
      | none => false
  | .class id =>
      m.uses ⟨.classes, id⟩ &&
        match m.findMethod? id "init" with
        | some method => m.methodAccepts method arguments
        | none => arguments.isEmpty
  | _ => false

/-- Is `super` bound to a class in the current scope, and `this` to an instance? -/
def bindsSuper (m : Machine) : Bool :=
  match m.scopes.value m.current "super", m.scopes.value m.current "this" with
  | .ok (.class _), .ok (.instance _) => true
  | _, _ => false

end Machine

/-- What is checked in a run. -/
structure Checks where
  /-- Before an expression is evaluated. -/
  before : Expr → Machine → Bool
  /-- Before a value is called with some values. -/
  call : Value → List Value → Machine → Bool
  /-- After an expression was evaluated to a value. -/
  after : Value → Machine → Bool

namespace Checks

/-- `super` and `this` are checked where a method of the superclass is looked up. -/
def lookups : Checks where
  before e m :=
    match e with
    | .super .. => m.bindsSuper
    | _ => true
  call _ _ _ := true
  after _ _ := true

/-- In addition, every value must lead to an object, and whatever is called must accept the arguments
if their number is right by its arity. -/
def all : Checks where
  before := lookups.before
  call callee arguments m :=
    Eval.arity? m callee != some arguments.length || m.accepts callee arguments
  after v m := v.refs.all m.uses

end Checks

namespace Eval

/-- Stop unless the condition holds. -/
def insist (why : Interruption) (condition : Machine → Bool) : Eval Unit :=
  fun m => if condition m then .done () m else .stopped why m

variable (checks : Checks) (why : Interruption) (limits : Limits) (g : Evaluator)

/-- Evaluate a call, with a check before it is made. -/
def evaluateCall (callee : Expr) (arguments : List Expr) (span : Span) : Eval Value :=
  locating span do
    let f ← g.evaluate callee
    let vs ← evaluateAll g arguments
    insist why (checks.call f vs)
    callValue limits g f vs (some span)

/-- Evaluate an expression, with a check if it is a call. -/
def evaluateGuarded (e : Expr) : Eval Value :=
  match e with
  | .call callee arguments span => evaluateCall checks why limits g callee arguments span
  | e => evaluateStep limits g e

/-- Evaluate an expression with checks. -/
def evaluateChecked (e : Expr) : Eval Value := do
  insist why (checks.before e)
  let v ← evaluateGuarded checks why limits g e
  insist why (checks.after v)
  return v

end Eval

/-- The evaluator with checks, for code and calls nested at most `room` deep. -/
def Evaluator.checked (checks : Checks) (why : Interruption) (limits : Limits) : Nat → Evaluator
  | 0 => .ofRoom limits 0
  | room + 1 =>
      { evaluate := Eval.evaluateChecked checks why limits (checked checks why limits room)
        execute := Eval.executeStep limits (checked checks why limits room)
        run := Eval.executeAll (checked checks why limits room) }

namespace Program

/-- Run a program by means of an evaluator. -/
def runOn (program : Program) (g : Evaluator) (echo : Bool) (m : Machine) : Ending × Machine :=
  match Eval.runStatements g echo program.statements m with
  | .done none m => (.completed, m)
  | .done (some t) m => (.uncaught t (m.text t.payload), m)
  | .stopped (.thrown t) m => (.uncaught t (m.text t.payload), m)
  | .stopped (.failed f) m => (.failed f, m)
  | .stopped .exhausted m => (.failed ⟨.hostDepth, none, []⟩, m.reset)
  | .stopped .outOfFuel m => (.unfinished, m.reset)

theorem run_eq_runOn (program : Program) (limits : Limits) (echo : Bool) (m : Machine) :
    program.run limits echo m =
      program.runOn (.ofRoom limits (Evaluator.roomFor limits.maxCallDepth)) echo m :=
  rfl

/-- Run a program with checks; `why` is how the run stops if one of them fails. -/
def checkedRun
    (program : Program)
    (checks : Checks)
    (why : Interruption)
    (limits : Limits)
    (echo : Bool)
    (m : Machine) :
    Ending × Machine :=
  program.runOn (.checked checks why limits (Evaluator.roomFor limits.maxCallDepth)) echo m

end Program

end Lox
