import Lox.Proofs.Simulation.Bracket
import Lox.Proofs.Visit

/-!
# Journals

A `Recorded` computation gives, besides its outcome, a journal: which expressions, statements and
bodies were begun, how statements ended, where the clauses of `try` statements were entered and
left, and which faults were raised, each with the machine of the moment. `Recorder` is the
evaluator that keeps a journal. Its functions are those of the evaluator, with the operations that
run no code of the program taken as they are (`Recorded.own`). That the outcomes are the same is
shown in `Lox.Proofs.Journal.Run`.
-/

namespace Lox

/-- The clauses of a `try` statement: what is tried, what handles a thrown value, and what runs in
any case. -/
inductive Clause
  | body | handler | cleanup
deriving DecidableEq

/-- Something that happens in a run, on the machine of the moment. -/
inductive Event
  | began (q : Question) (m : Machine)
  | ended (s : Stmt) (signal : Signal) (m : Machine)
  | opened (clause : Clause) (statements : List Stmt) (m : Machine)
  | closed (clause : Clause) (statements : List Stmt) (signal : Signal) (m : Machine)
  | raised (fault : Fault) (m : Machine)

/-- The machine of the moment. -/
def Event.machine : Event → Machine
  | began _ m | ended _ _ m | opened _ _ m | closed _ _ _ m | raised _ m => m

namespace Outcome

/-- The fault that an outcome reports, if it reports one. Nesting that is too deep for the host is
reported as a fault, too. -/
def fault? {α : Type} : Outcome α → Option Fault
  | stopped (.failed f) _ => some f.fault
  | stopped .exhausted _ => some .hostDepth
  | _ => none

/-- The event that a fault is raised on the machine, if the outcome reports one. -/
def raised {α : Type} (o : Outcome α) (n : Machine) : List Event :=
  o.fault?.toList.map (.raised · n)

end Outcome

/-- A computation that keeps a journal. -/
def Recorded (α : Type) :=
  Machine → Outcome α × List Event

namespace Recorded

/-- Go on after an outcome, with a result and with the journal. -/
def andThen {α β : Type} (f : α → Recorded β) : Outcome α × List Event → Outcome β × List Event
  | (.done a n, journal) => ((f a n).1, journal ++ (f a n).2)
  | (.stopped why n, journal) => (.stopped why n, journal)

instance : Monad Recorded where
  pure a := fun m => (.done a m, [])
  bind c f := fun m => andThen f (c m)

section Primitives

variable {α : Type}

/-- A computation that runs no code of the program. It may raise a fault. -/
def own (c : Eval α) : Recorded α :=
  fun m => (c m, (c m).raised (c m).machine)

/-- Note that the answer to a question was begun. -/
def starting (q : Question) (c : Recorded α) : Recorded α :=
  fun m => ((c m).1, .began q m :: (c m).2)

/-- Change the machine on the way in and on the way out. -/
def around
    (inward : Machine → Machine)
    (outward : Machine → Machine → Machine)
    (c : Recorded α) :
    Recorded α :=
  fun m => ((c (inward m)).1.onMachine (outward m), (c (inward m)).2)

/-- Run in a new scope inside `parent`. -/
def inNewScope (parent : ScopeId) (bindings : List Binding) (c : Recorded α) : Recorded α :=
  around (·.enter parent bindings) (fun m n => n.leave m.current) c

/-- Run in a new scope inside the current one. -/
def inInnerScope (bindings : List Binding) (c : Recorded α) : Recorded α :=
  around (fun m => m.enter m.current bindings) (fun m n => n.leave m.current) c

/-- Run in a call. -/
def inCall (frame : Frame) (c : Recorded α) : Recorded α :=
  around (·.pushFrame frame) (fun _ n => n.popFrame) c

/-- Locate a fault at an expression. -/
def locating (span : Span) (c : Recorded α) : Recorded α :=
  fun m => (Eval.locating span (fun m => (c m).1) m, (c m).2)

/-- The event that a statement ends with an outcome, if it ends with a signal. -/
def ending (s : Stmt) : Outcome Signal → List Event
  | .done signal n => [.ended s signal n]
  | .stopped .. => []

/-- Settle how a statement ends, and note it. -/
def settle (catchFaults : Bool) (s : Stmt) (c : Recorded Signal) : Recorded Signal :=
  fun m =>
    let outcome := Eval.settle catchFaults s.span (fun m => (c m).1) m
    (outcome, (c m).2 ++ ending s outcome)

/-- The event that a clause is left with an outcome, if it ends with a signal. -/
def closing (clause : Clause) (statements : List Stmt) : Outcome Signal → List Event
  | .done signal n => [.closed clause statements signal n]
  | .stopped .. => []

/-- Note that a clause is entered and left. -/
def inClause (clause : Clause) (statements : List Stmt) (c : Recorded Signal) : Recorded Signal :=
  fun m => ((c m).1, .opened clause statements m :: ((c m).2 ++ closing clause statements (c m).1))

end Primitives

end Recorded

/-- The means to evaluate and execute parts and to keep the journal of that. -/
structure Recorder where
  evaluate : Expr → Recorded Value
  execute : Stmt → Recorded Signal
  run : List Stmt → Recorded Signal

namespace Recorder

/-- The evaluator that keeps no journal. -/
def evaluator (R : Recorder) : Evaluator where
  evaluate e m := (R.evaluate e m).1
  execute s m := (R.execute s m).1
  run body m := (R.run body m).1

/-- The journal of the answer to a question. -/
def journal (R : Recorder) : Question → Machine → List Event
  | .evaluate e, m => (R.evaluate e m).2
  | .execute s, m => (R.execute s m).2
  | .run body, m => (R.run body m).2

end Recorder

namespace Recorded

variable (limits : Limits)
variable (R : Recorder)

section Blocks

/-- Execute statements in order up to the first that does not end normally. -/
def executeAll : List Stmt → Recorded Signal
  | [] => return .normal
  | stmt :: rest => do
      match ← R.execute stmt with
      | .normal => executeAll rest
      | signal => return signal

/-- Execute a block in a scope of its own. -/
def executeBlock (statements : List Stmt) (bindings : List Binding) : Recorded Signal :=
  inInnerScope bindings (executeAll R statements)

/-- Evaluate expressions in order. -/
def evaluateAll : List Expr → Recorded (List Value)
  | [] => return []
  | e :: rest => do
      let v ← R.evaluate e
      return v :: (← evaluateAll rest)

end Blocks

section Calls

/-- Run the body of a function in a new scope inside `scope`, which binds the parameters. -/
def runBody
    (params : List String)
    (body : List Stmt)
    (scope : ScopeId)
    (arguments : List Value) :
    Recorded Value := do
  let signal ← inNewScope scope (parameterBindings params arguments) (R.run body)
  own (Eval.callResult signal)

/-- Run a method on an instance. -/
def runMethod (receiver : InstanceId) (method : MethodId) (arguments : List Value) :
    Recorded Value := do
  match ← own (Eval.ask fun m => m.methods[method]?) with
  | some f =>
      let inner ← own (Eval.make fun m => m.newScope f.scope)
      own (Eval.update fun m => m.define inner ⟨"this", .instance receiver, false⟩)
      let result ← runBody R f.params f.body inner arguments
      return if f.isInitializer then .instance receiver else result
  | none => return .nil

/-- Run a function or bound method. -/
def runFunction (id : FunctionId) (arguments : List Value) : Recorded Value := do
  match ← own (Eval.ask fun m => m.functions[id]?) with
  | some (.closure _ params body scope) => runBody R params body scope arguments
  | some (.bound receiver method) => runMethod R receiver method arguments
  | none => return .nil

/-- Make an instance of a class and run its initializer, if it has one. -/
def construct (classId : ClassId) (arguments : List Value) : Recorded Value := do
  let id ← own (Eval.make fun m => m.newInstance classId)
  match ← own (Eval.ask fun m => m.findMethod? classId "init") with
  | some method =>
      let _ ← runMethod R id method arguments
      return .instance id
  | none => return .instance id

/-- Run what can be called. -/
def invoke (callee : Value) (arguments : List Value) : Recorded Value :=
  match callee with
  | .function id => runFunction R id arguments
  | .native id => own (Eval.callNative id arguments)
  | .class id => construct R id arguments
  | _ => return .nil

/-- Call a value. -/
def callValue (callee : Value) (arguments : List Value) (site : Option Span) : Recorded Value := do
  match ← own (Eval.ask fun m => Eval.arity? m callee) with
  | none => own (Eval.fail (.notCallable callee.kind))
  | some expected =>
      let name ← own (Eval.ask fun m => Eval.calleeName m callee)
      if arguments.length ≠ expected then
        own (Eval.fail (.arity name expected arguments.length))
      else if limits.maxCallDepth ≤ (← own (Eval.ask fun m => m.frames.length)) then
        own (Eval.fail (.callDepth limits.maxCallDepth))
      else
        inCall ⟨name, site⟩ (invoke R callee arguments)

end Calls

section Expressions

/-- Evaluate a binary operator. -/
def evaluateBinary (left : Expr) (op : BinaryOp) (right : Expr) : Recorded Value := do
  let l ← R.evaluate left
  let r ← R.evaluate right
  match op.apply l r with
  | .ok v => return v
  | .error .divisionByZero =>
      own (Eval.failAt right.span "divisor is zero" .divisionByZero)
  | .error .moduloByZero =>
      own (Eval.failAt right.span "divisor is zero" .moduloByZero)
  | .error fault => own (Eval.fail fault)

/-- Add entries to a map. -/
def addEntries (map : MapId) : List MapEntry → Recorded Unit
  | [] => return ()
  | .mk key value :: rest => do
      let k ← R.evaluate key
      let v ← R.evaluate value
      let _ ← own (Eval.locating key.span (Eval.setItem (.map map) k v))
      addEntries map rest

/-- Evaluate an expression by means of the recorder of its parts. -/
def evaluateParts (e : Expr) : Recorded Value :=
  locating e.span <|
    match e with
    | .literal value _ => return .ofLiteral value
    | .reference name _ => own (Eval.lookup name)
    | .assign name value _ => do
        let v ← R.evaluate value
        own (Eval.assign name v)
        return v
    | .binary left op right _ => evaluateBinary R left op right
    | .unary op operand _ => do
        let v ← R.evaluate operand
        own (Eval.ofExcept (op.apply v))
    | .logical left op right _ => do
        let l ← R.evaluate left
        if op.decidedBy l then return l else R.evaluate right
    | .conditional condition thenBranch elseBranch _ => do
        if (← R.evaluate condition).truthy then R.evaluate thenBranch else R.evaluate elseBranch
    | .call callee arguments span => do
        let f ← R.evaluate callee
        let vs ← evaluateAll R arguments
        callValue limits R f vs (some span)
    | .get object name _ => do
        own (Eval.property (← R.evaluate object) name)
    | .set object name value _ => do
        match ← R.evaluate object with
        | .instance id =>
            let v ← R.evaluate value
            own (Eval.setField id name v)
            return v
        | other => own (Eval.fail (.noFields other.kind))
    | .this _ => own (Eval.lookup "this")
    | .super method _ => own (Eval.evaluateSuper method)
    | .list elements _ => do
        let vs ← evaluateAll R elements
        own (Eval.make fun m => m.newList vs.toArray)
    | .map entries _ => do
        let v ← own (Eval.make fun m => m.newMap [])
        match v with
        | .map id =>
            addEntries R id entries
            return v
        | _ => return v
    | .index object index _ => do
        let o ← R.evaluate object
        let i ← R.evaluate index
        own (Eval.item o i)
    | .indexSet object index value _ => do
        let o ← R.evaluate object
        let i ← R.evaluate index
        let v ← R.evaluate value
        own (Eval.setItem o i v)
    | .function params body _ => own (Eval.makeClosure "lambda" params body)

end Expressions

section Loops

/-- Execute the body of a loop once, in a scope of its own. -/
def loopBody (body : Stmt) : Recorded Signal :=
  executeBlock R [body] []

/-- Repeat the body of a loop as long as the condition holds. -/
def whileIterations (condition : Expr) (body : Stmt) : Nat → Recorded Signal
  | 0 => own (Eval.stop .outOfFuel)
  | fuel + 1 => do
      if (← R.evaluate condition).truthy then
        match ← loopBody R body with
        | .normal => whileIterations condition body fuel
        | .continued => whileIterations condition body fuel
        | .broke => return .normal
        | signal => return signal
      else
        return .normal

/-- A loop that runs its body before it tests. -/
def doWhile (condition : Expr) (body : Stmt) (fuel : Nat) : Recorded Signal := do
  match ← loopBody R body with
  | .normal => whileIterations R condition body fuel
  | .continued => whileIterations R condition body fuel
  | .broke => return .normal
  | signal => return signal

/-- Does a condition hold? -/
def holds (condition : Option Expr) : Recorded Bool :=
  match condition with
  | none => return true
  | some e => return (← R.evaluate e).truthy

/-- The increment of a `for` statement. -/
def advance (isFirst : Bool) (increment : Option Expr) : Recorded Unit :=
  match isFirst, increment with
  | false, some e => do
      let _ ← R.evaluate e
      return ()
  | _, _ => return ()

/-- The iterations of a `for` statement. -/
def forIterations
    (condition increment : Option Expr)
    (body : Stmt) :
    Nat → Bool → ScopeId → Recorded Signal
  | 0, _, _ => own (Eval.stop .outOfFuel)
  | fuel + 1, isFirst, before => do
      let scope ← own (Eval.enterCopy before)
      advance R isFirst increment
      if ← holds R condition then
        match ← loopBody R body with
        | .normal => forIterations condition increment body fuel false scope
        | .continued => forIterations condition increment body fuel false scope
        | .broke => return .normal
        | signal => return signal
      else
        return .normal

/-- Execute a statement that may be missing. -/
def executeOptional : Option Stmt → Recorded Signal
  | none => return .normal
  | some stmt => R.execute stmt

/-- A `for` statement. -/
def executeFor
    (initial : Option Stmt)
    (condition increment : Option Expr)
    (body : Stmt)
    (fuel : Nat) :
    Recorded Signal :=
  inInnerScope [] do
    match ← executeOptional R initial with
    | .normal => do
        let scope ← own (Eval.ask (·.current))
        forIterations R condition increment body fuel true scope
    | signal => return signal

end Loops

section Statements

/-- The class that a class declaration names as its superclass. -/
def evaluateSuperclass : Option (String × Span) → Recorded (Option ClassId)
  | none => return none
  | some (name, span) => do
      match ← R.evaluate (.reference name span) with
      | .class id => return some id
      | other =>
          let fault := Fault.superclassKind other.kind
          own (Eval.failAt span fault.message fault)

/-- Declare a class. -/
def declareClass
    (name : String)
    (superclass : Option (String × Span))
    (methods : List FunctionDecl) :
    Recorded Signal := do
  let parent ← evaluateSuperclass R superclass
  own (Eval.defineClass name parent methods)

/-- Execute the clause for a thrown value, if there is one. -/
def executeHandler (handler : Option CatchClause) (signal : Signal) : Recorded Signal :=
  match handler, signal with
  | some (.mk name body), .thrown t =>
      inClause .handler body (executeBlock R body [⟨name, t.payload, false⟩])
  | _, signal => return signal

/-- Execute the clause that runs in any case. If it does not end normally, its signal replaces the
one before it. -/
def executeCleanup (cleanup : Option (List Stmt)) (signal : Signal) : Recorded Signal :=
  match cleanup with
  | none => return signal
  | some statements => do
      match ← inClause .cleanup statements (executeBlock R statements []) with
      | .normal => return signal
      | last => return last

/-- Execute a `try` statement. -/
def executeTry
    (body : List Stmt)
    (handler : Option CatchClause)
    (cleanup : Option (List Stmt)) :
    Recorded Signal := do
  let signal ← executeHandler R handler (← inClause .body body (executeBlock R body []))
  executeCleanup R cleanup signal

/-- Evaluate an expression that may be missing. -/
def evaluateOptional : Option Expr → Recorded Value
  | none => return .nil
  | some e => R.evaluate e

/-- Execute a statement by means of the recorder of its parts, before it is settled how the
statement ends. -/
def executeParts (stmt : Stmt) : Recorded Signal :=
  match stmt with
  | .expression e _ => do
      let v ← R.evaluate e
      own (Eval.update fun m => { m with lastValue := v })
      return .normal
  | .print e _ => do
      let v ← R.evaluate e
      let line ← own (Eval.ask fun m => m.text v)
      own (Eval.printLine line)
      return .normal
  | .declare name initial isConst _ => do
      let v ← evaluateOptional R initial
      own (Eval.define name v isConst)
      return .normal
  | .block statements _ => executeBlock R statements []
  | .ifElse condition thenBranch elseBranch _ => do
      if (← R.evaluate condition).truthy then
        R.execute thenBranch
      else
        executeOptional R elseBranch
  | .whileLoop condition body _ => whileIterations R condition body limits.fuel
  | .doWhile body condition _ => doWhile R condition body limits.fuel
  | .forLoop initial condition increment body _ =>
      executeFor R initial condition increment body limits.fuel
  | .breakLoop _ => return .broke
  | .continueLoop _ => return .continued
  | .function d => own (Eval.declareFunction d)
  | .returnValue value _ => return .returned (← evaluateOptional R value)
  | .classDecl name superclass methods _ => declareClass R name superclass methods
  | .tryBlock body handler cleanup _ => executeTry R body handler cleanup
  | .throwValue value span => do
      let payload ← R.evaluate value
      let trace ← own (Eval.ask fun m => stackTrace (some span) m.frames)
      return .thrown ⟨payload, trace, span⟩
  | .dump _ => own Eval.dumpBindings

/-- Execute a statement. -/
def executeStep (stmt : Stmt) : Recorded Signal :=
  settle limits.catchFaults stmt (executeParts limits R stmt)

/-- Execute the statements of a program. -/
def runStatements (echo : Bool) : List Stmt → Recorded (Option Thrown)
  | [] => return none
  | stmt :: rest => do
      match ← R.execute stmt with
      | .thrown t => return some t
      | _ =>
          if echo then
            own (Eval.echoValue stmt)
          runStatements echo rest

end Statements

end Recorded

namespace Recorder

/-- The recorder that uses `R` for the parts. -/
def deeper (limits : Limits) (R : Recorder) : Recorder where
  evaluate e := .starting (.evaluate e) (Recorded.evaluateParts limits R e)
  execute s := .starting (.execute s) (Recorded.executeStep limits R s)
  run body := .starting (.run body) (Recorded.executeAll R body)

/-- The recorder for code and calls nested at most `room` deep. -/
def ofRoom (limits : Limits) : Nat → Recorder
  | 0 =>
      { evaluate := fun _ => .own (Eval.stop .exhausted)
        execute := fun _ => .own (Eval.stop .exhausted)
        run := fun _ => .own (Eval.stop .exhausted) }
  | room + 1 => deeper limits (ofRoom limits room)

end Recorder

namespace Program

/-- The run of a program with its journal. -/
def recorded (program : Program) (limits : Limits) (echo : Bool) : Recorded (Option Thrown) :=
  Recorded.runStatements (.ofRoom limits (Evaluator.roomFor limits.maxCallDepth)) echo
    program.statements

/-- The journal of the run of a program. -/
def journal (program : Program) (limits : Limits) (echo : Bool) (m : Machine) : List Event :=
  (program.recorded limits echo m).2

end Program

end Lox
