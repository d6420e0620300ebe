import Lox.Eval.Operation

/-!
# Evaluating expressions and executing statements

An `Evaluator` evaluates expressions, executes statements and runs the bodies of functions. The
functions here do so by means of an evaluator for the parts, so none of them is recursive but for
the loops, which are bounded by fuel; `Evaluator.ofRoom` ties them together. It gives up when the
parts are nested too deeply for it.
-/

namespace Lox

/-- What a run is allowed: how many calls may be active, whether faults can be caught by the
program, and how often a loop may be repeated. -/
structure Limits where
  maxCallDepth : Nat
  catchFaults : Bool
  fuel : Nat
deriving DecidableEq

/-- The means to evaluate the parts of expressions and statements. -/
structure Evaluator where
  evaluate : Expr → Eval Value
  execute : Stmt → Eval Signal
  /-- Run the body of a function or method, in the scope that binds its parameters. -/
  run : List Stmt → Eval Signal

namespace Eval

variable (limits : Limits)
variable (g : Evaluator)

section Blocks

/-- Execute statements in order up to the first that does not end normally. -/
def executeAll : List Stmt → Eval Signal
  | [] => return .normal
  | stmt :: rest => do
      match ← g.execute stmt with
      | .normal => executeAll rest
      | signal => return signal

/-- Execute a block in a scope of its own. -/
def executeBlock (statements : List Stmt) (bindings : List Binding) : Eval Signal :=
  inInnerScope bindings (executeAll g statements)

/-- Evaluate expressions in order. -/
def evaluateAll : List Expr → Eval (List Value)
  | [] => return []
  | e :: rest => do
      let v ← g.evaluate e
      return v :: (← evaluateAll rest)

end Blocks

section Calls

/-- The value of a call whose body has ended. -/
def callResult : Signal → Eval Value
  | .returned v => return v
  | .thrown t => stop (.thrown t)
  | _ => return .nil

/-- Run the body of a function in a new scope inside `scope`, which binds the parameters. -/
def runBody
    (params : List String)
    (body : List Stmt)
    (scope : ScopeId)
    (arguments : List Value) :
    Eval Value := do
  let bindings := (params.zip arguments).map fun p => Binding.mk p.1 p.2 false
  callResult (← inNewScope scope bindings (g.run body))

/-- Run a method on an instance. `this` is bound in a scope between that of the method and the
parameters. An initializer gives the instance, whatever its body returns. -/
def runMethod (receiver : InstanceId) (method : MethodId) (arguments : List Value) :
    Eval Value := do
  match ← ask fun m => m.methods[method]? with
  | some f =>
      let inner ← make fun m => m.newScope f.scope
      update fun m => m.define inner ⟨"this", .instance receiver, false⟩
      let result ← runBody g f.params f.body inner arguments
      return if f.isInitializer then .instance receiver else result
  | none => return .nil

/-- Run a function or bound method. -/
def runFunction (id : FunctionId) (arguments : List Value) : Eval Value := do
  match ← ask fun m => m.functions[id]? with
  | some (.closure _ params body scope) => runBody g params body scope arguments
  | some (.bound receiver method) => runMethod g receiver method arguments
  | none => return .nil

/-- Make an instance of a class and run its initializer, if it has one. -/
def construct (classId : ClassId) (arguments : List Value) : Eval Value := do
  let id ← make fun m => m.newInstance classId
  match ← ask fun m => m.findMethod? classId "init" with
  | some method =>
      let _ ← runMethod g id method arguments
      return .instance id
  | none => return .instance id

/-- The number of arguments that a value expects when it is called, if it can be. -/
def arity? (m : Machine) : Value → Option Nat
  | .function id => some (m.functionArity id)
  | .native id => some ((m.natives[id]?.map (·.arity)).getD 0)
  | .class id => some (((m.findMethod? id "init").map m.methodArity).getD 0)
  | _ => none

/-- The name under which the call of a value is listed. -/
def calleeName (m : Machine) : Value → String
  | .function id => m.functionQualifiedName id
  | .native id => (m.natives[id]?.map (·.name)).getD ""
  | .class id => m.className id
  | _ => ""

/-- Run what can be called. -/
def invoke (callee : Value) (arguments : List Value) : Eval Value :=
  match callee with
  | .function id => runFunction g id arguments
  | .native id => callNative id arguments
  | .class id => construct g id arguments
  | _ => return .nil

/-- Call a value: it must be callable, the number of arguments must be right, and there must not
be too many active calls. -/
def callValue (callee : Value) (arguments : List Value) (site : Option Span) : Eval Value := do
  match ← ask fun m => arity? m callee with
  | none => fail (.notCallable callee.kind)
  | some expected =>
      let name ← ask fun m => calleeName m callee
      if arguments.length ≠ expected then
        fail (.arity name expected arguments.length)
      else if limits.maxCallDepth ≤ (← ask fun m => m.frames.length) then
        fail (.callDepth limits.maxCallDepth)
      else
        inCall ⟨name, site⟩ (invoke g callee arguments)

end Calls

section Expressions

/-- Make a function that closes over the current scope. -/
def makeClosure (name : String) (params : List String) (body : List Stmt) : Eval Value := do
  let scope ← ask (·.current)
  return .function (← make fun m => m.newFunction (.closure name params body scope))

/-- Evaluate a binary operator. Division by zero is reported at the divisor. -/
def evaluateBinary (left : Expr) (op : BinaryOp) (right : Expr) : Eval Value := do
  let l ← g.evaluate left
  let r ← g.evaluate right
  match op.apply l r with
  | .ok v => return v
  | .error .divisionByZero => failAt right.span "divisor is zero" .divisionByZero
  | .error .moduloByZero => failAt right.span "divisor is zero" .moduloByZero
  | .error fault => fail fault

/-- Add entries to a map. A key that is unfit is reported at the key. -/
def addEntries (map : MapId) : List MapEntry → Eval Unit
  | [] => return ()
  | .mk key value :: rest => do
      let k ← g.evaluate key
      let v ← g.evaluate value
      let _ ← locating key.span (setItem (.map map) k v)
      addEntries map rest

/-- A method of the superclass of the class that declared the running method, bound to `this`. -/
def evaluateSuper (method : String) : Eval Value := do
  let parent ← lookup "super"
  let receiver ← lookup "this"
  match parent, receiver with
  | .class parent, .instance receiver =>
      match ← ask fun m => m.findMethod? parent method with
      | some id => return .function (← make fun m => m.newFunction (.bound receiver id))
      | none => fail (.undefinedSuperMethod method)
  | _, _ => fail (.undefinedSuperMethod method)

/-- Evaluate an expression by means of the evaluator of its parts. -/
def evaluateStep (e : Expr) : Eval Value :=
  locating e.span <|
    match e with
    | .literal value _ => return .ofLiteral value
    | .reference name _ => lookup name
    | .assign name value _ => do
        let v ← g.evaluate value
        assign name v
        return v
    | .binary left op right _ => evaluateBinary g left op right
    | .unary op operand _ => do
        let v ← g.evaluate operand
        ofExcept (op.apply v)
    | .logical left op right _ => do
        let l ← g.evaluate left
        if op.decidedBy l then return l else g.evaluate right
    | .conditional condition thenBranch elseBranch _ => do
        if (← g.evaluate condition).truthy then g.evaluate thenBranch else g.evaluate elseBranch
    | .call callee arguments span => do
        let f ← g.evaluate callee
        let vs ← evaluateAll g arguments
        callValue limits g f vs (some span)
    | .get object name _ => do
        property (← g.evaluate object) name
    | .set object name value _ => do
        match ← g.evaluate object with
        | .instance id =>
            let v ← g.evaluate value
            setField id name v
            return v
        | other => fail (.noFields other.kind)
    | .this _ => lookup "this"
    | .super method _ => evaluateSuper method
    | .list elements _ => do
        let vs ← evaluateAll g elements
        make fun m => m.newList vs.toArray
    | .map entries _ => do
        let v ← make fun m => m.newMap []
        match v with
        | .map id =>
            addEntries g id entries
            return v
        | _ => return v
    | .index object index _ => do
        let o ← g.evaluate object
        let i ← g.evaluate index
        item o i
    | .indexSet object index value _ => do
        let o ← g.evaluate object
        let i ← g.evaluate index
        let v ← g.evaluate value
        setItem o i v
    | .function params body _ => makeClosure "lambda" params body

end Expressions

section Loops

/-- Execute the body of a loop once, in a scope of its own. -/
def loopBody (body : Stmt) : Eval Signal :=
  executeBlock g [body] []

/-- Repeat the body of a loop as long as the condition holds. -/
def whileIterations (condition : Expr) (body : Stmt) : Nat → Eval Signal
  | 0 => stop .outOfFuel
  | fuel + 1 => do
      if (← g.evaluate condition).truthy then
        match ← loopBody g body with
        | .normal => whileIterations condition body fuel
        | .continued => whileIterations condition body fuel
        | .broke => return .normal
        | signal => return signal
      else
        return .normal

/-- A loop that runs its body before it tests. -/
def doWhile (condition : Expr) (body : Stmt) (fuel : Nat) : Eval Signal := do
  match ← loopBody g body with
  | .normal => whileIterations g condition body fuel
  | .continued => whileIterations g condition body fuel
  | .broke => return .normal
  | signal => return signal

/-- Does a condition hold? A missing one does. -/
def holds (condition : Option Expr) : Eval Bool :=
  match condition with
  | none => return true
  | some e => return (← g.evaluate e).truthy

/-- Make a copy of a scope and make it current. -/
def enterCopy (scope : ScopeId) : Eval ScopeId :=
  fun m =>
    let (scopes, id) := m.scopes.copy scope
    .done id { m with scopes := scopes, current := id }

/-- The increment of a `for` statement, which all iterations but the first begin with. -/
def advance (isFirst : Bool) (increment : Option Expr) : Eval Unit :=
  match isFirst, increment with
  | false, some e => do
      let _ ← g.evaluate e
      return ()
  | _, _ => return ()

/-- The iterations of a `for` statement. Each works on a copy of the bindings that the one before
it left, and the increment runs in the new copy, so a closure made in an iteration keeps the
values of that iteration. -/
def forIterations
    (condition increment : Option Expr)
    (body : Stmt) :
    Nat → Bool → ScopeId → Eval Signal
  | 0, _, _ => stop .outOfFuel
  | fuel + 1, isFirst, before => do
      let scope ← enterCopy before
      advance g isFirst increment
      if ← holds g condition then
        match ← loopBody g body with
        | .normal => forIterations condition increment body fuel false scope
        | .continued => forIterations condition increment body fuel false scope
        | .broke => return .normal
        | signal => return signal
      else
        return .normal

/-- Execute a statement that may be missing. -/
def executeOptional : Option Stmt → Eval Signal
  | none => return .normal
  | some stmt => g.execute stmt

/-- A `for` statement; the bindings of its first clause are in a scope around the iterations. -/
def executeFor
    (initial : Option Stmt)
    (condition increment : Option Expr)
    (body : Stmt)
    (fuel : Nat) :
    Eval Signal :=
  inInnerScope [] do
    match ← executeOptional g initial with
    | .normal => do
        let scope ← ask (·.current)
        forIterations g condition increment body fuel true scope
    | signal => return signal

end Loops

section Statements

/-- Define a function under its name. -/
def declareFunction (d : FunctionDecl) : Eval Signal := do
  let f ← makeClosure d.name d.params d.body
  define d.name f false
  return .normal

/-- The methods of a class, which close over `scope`. -/
def makeMethods
    (owner : ClassId)
    (scope : ScopeId) :
    List FunctionDecl → List (String × MethodId) → Eval (List (String × MethodId))
  | [], table => return table
  | d :: rest, table => do
      let id ← make fun m =>
        m.newMethod ⟨d.name, d.params, d.body, scope, owner, d.name == "init"⟩
      makeMethods owner scope rest (putNamed d.name id table)

/-- The class that a class declaration names as its superclass. -/
def evaluateSuperclass : Option (String × Span) → Eval (Option ClassId)
  | none => return none
  | some (name, span) => do
      match ← g.evaluate (.reference name span) with
      | .class id => return some id
      | other =>
          let fault := Fault.superclassKind other.kind
          failAt span fault.message fault

/-- The scope that the methods of a class close over; for a subclass it binds `super`. -/
def classScope : Option ClassId → Eval ScopeId
  | none => ask (·.current)
  | some parent => do
      let outer ← ask (·.current)
      let inner ← make fun m => m.newScope outer
      update fun m => m.define inner ⟨"super", .class parent, false⟩
      return inner

/-- Define a class under its name. -/
def defineClass
    (name : String)
    (parent : Option ClassId)
    (methods : List FunctionDecl) :
    Eval Signal := do
  define name .nil false
  let scope ← classScope parent
  let owner ← ask fun m => m.classes.size
  let table ← makeMethods owner scope methods []
  let id ← make fun m => m.newClass ⟨name, parent, table⟩
  define name (.class id) false
  return .normal

/-- Declare a class; its superclass is determined first. -/
def declareClass
    (name : String)
    (superclass : Option (String × Span))
    (methods : List FunctionDecl) :
    Eval Signal := do
  let parent ← evaluateSuperclass g superclass
  defineClass name parent methods

/-- Execute the clause for a thrown value, if there is one. -/
def executeHandler (handler : Option CatchClause) (signal : Signal) : Eval Signal :=
  match handler, signal with
  | some (.mk name body), .thrown t => executeBlock g body [⟨name, t.payload, false⟩]
  | _, signal => return signal

/-- Execute a `try` statement. If the clause that runs in any case does not end normally, its signal
replaces the one before it. -/
def executeTry
    (body : List Stmt)
    (handler : Option CatchClause)
    (cleanup : Option (List Stmt)) :
    Eval Signal := do
  let signal ← executeHandler g handler (← executeBlock g body [])
  match cleanup with
  | none => return signal
  | some statements =>
      match ← executeBlock g statements [] with
      | .normal => return signal
      | last => return last

/-- The lines that list the bindings of scopes. -/
def dumpLines (m : Machine) (scopes : List ScopeId) : List String :=
  scopes.flatMap fun scope =>
    ((m.scopes.get scope).bindings.map fun b => s!"{b.name} = {m.text b.value}") ++ ["---"]

/-- List the visible bindings, innermost scope first, without the built-in functions. -/
def dumpBindings : Eval Signal := do
  let lines ← ask fun m =>
    dumpLines m (m.scopes.chain m.current (some Machine.builtinScope))
  update fun m => { m with output := m.output ++ String.join (lines.map (· ++ "\n")) }
  return .normal

/-- Evaluate an expression that may be missing. -/
def evaluateOptional : Option Expr → Eval Value
  | none => return .nil
  | some e => g.evaluate e

/-- Execute a statement by means of the evaluator of its parts. -/
def executeStep (stmt : Stmt) : Eval Signal :=
  settle limits.catchFaults stmt.span <|
    match stmt with
    | .expression e _ => do
        let v ← g.evaluate e
        update fun m => { m with lastValue := v }
        return .normal
    | .print e _ => do
        let v ← g.evaluate e
        printLine (← ask fun m => m.text v)
        return .normal
    | .declare name initial isConst _ => do
        let v ← evaluateOptional g initial
        define name v isConst
        return .normal
    | .block statements _ => executeBlock g statements []
    | .ifElse condition thenBranch elseBranch _ => do
        if (← g.evaluate condition).truthy then
          g.execute thenBranch
        else
          match elseBranch with
          | some stmt => g.execute stmt
          | none => return .normal
    | .whileLoop condition body _ => whileIterations g condition body limits.fuel
    | .doWhile body condition _ => doWhile g condition body limits.fuel
    | .forLoop initial condition increment body _ =>
        executeFor g initial condition increment body limits.fuel
    | .breakLoop _ => return .broke
    | .continueLoop _ => return .continued
    | .function d => declareFunction d
    | .returnValue value _ => return .returned (← evaluateOptional g value)
    | .classDecl name superclass methods _ => declareClass g name superclass methods
    | .tryBlock body handler cleanup _ => executeTry g body handler cleanup
    | .throwValue value span => do
        let payload ← g.evaluate value
        let trace ← ask fun m => stackTrace (some span) m.frames
        return .thrown ⟨payload, trace, span⟩
    | .dump _ => dumpBindings

end Statements

end Eval

namespace Evaluator

/-- The evaluator for code and calls nested at most `room` deep. -/
def ofRoom (limits : Limits) : Nat → Evaluator
  | 0 =>
      { evaluate := fun _ => Eval.stop .exhausted
        execute := fun _ => Eval.stop .exhausted
        run := fun _ => Eval.stop .exhausted }
  | room + 1 =>
      { evaluate := fun e => Eval.evaluateStep limits (ofRoom limits room) e
        execute := fun stmt => Eval.executeStep limits (ofRoom limits room) stmt
        run := fun body => Eval.executeAll (ofRoom limits room) body }

/-- The room for a run: twenty levels of nesting for each of the permitted calls, and enough for
the deepest code outside of calls that can be read. -/
def roomFor (maxCallDepth : Nat) : Nat :=
  20 * maxCallDepth + 500

end Evaluator

end Lox
