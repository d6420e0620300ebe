import Lox.Display

/-!
# Running

A computation takes a machine to a machine. It is done with a result or stopped: by a thrown
value, by a fault, because the nesting of the computation is exhausted, or because a loop has used
up its fuel. A computation that switches to another scope or enters a call undoes that when it
ends, however it ends.
-/

namespace Lox

/-- A line of a stack trace: a function and the place it had reached. -/
structure TraceEntry where
  function : String
  site : Option Span
deriving DecidableEq

/-- The active calls as a stack trace, innermost first, for the place `site`. Each call is listed
with the place it has reached: for the innermost one that is `site`, for any other the call it
made. -/
def stackTrace (site : Option Span) : List Frame → List TraceEntry
  | [] => [⟨"<script>", site⟩]
  | frame :: outer => ⟨frame.name, site⟩ :: stackTrace frame.callSite outer

/-- A thrown value, with the active calls and the place at which it was thrown. -/
structure Thrown where
  payload : Value
  trace : List TraceEntry
  span : Span
deriving DecidableEq

/-- A fault with what is known about its place: the label of the innermost expression or
statement, and the active calls. -/
structure Failure where
  fault : Fault
  label : Option (Span × String)
  trace : List TraceEntry
deriving DecidableEq

namespace Failure

/-- Label the fault with its message at a place, unless it has a label. -/
def locate (f : Failure) (span : Span) : Failure :=
  match f.label with
  | some _ => f
  | none => { f with label := some (span, f.fault.message) }

/-- Add the stack trace for the place `site`, unless there is one. -/
def attachTrace (f : Failure) (site : Span) (frames : List Frame) : Failure :=
  if f.trace.isEmpty then { f with trace := stackTrace (some site) frames } else f

end Failure

/-- Why a computation stops without a result. -/
inductive Interruption
  | thrown (t : Thrown)
  | failed (f : Failure)
  | exhausted
  | outOfFuel
deriving DecidableEq

/-- How a computation ends. -/
inductive Outcome (α : Type)
  | done (value : α) (m : Machine)
  | stopped (why : Interruption) (m : Machine)

/-- A computation on a machine. -/
def Eval (α : Type) :=
  Machine → Outcome α

/-- How a statement ends. -/
inductive Signal
  | normal
  | returned (v : Value)
  | broke
  | continued
  | thrown (t : Thrown)
deriving DecidableEq

namespace Eval

@[always_inline]
instance : Monad Eval where
  pure a := fun m => .done a m
  bind p f := fun m =>
    match p m with
    | .done a m => f a m
    | .stopped why m => .stopped why m

section Primitives

/-- Stop. -/
@[inline] def stop {α : Type} (why : Interruption) : Eval α :=
  fun m => .stopped why m

/-- Fail; the place becomes known further out. -/
@[inline] def fail {α : Type} (fault : Fault) : Eval α :=
  stop (.failed ⟨fault, none, []⟩)

/-- Fail at a known place. -/
@[inline] def failAt {α : Type} (span : Span) (caption : String) (fault : Fault) : Eval α :=
  stop (.failed ⟨fault, some (span, caption), []⟩)

/-- Look at the machine. -/
@[inline] def ask {α : Type} (question : Machine → α) : Eval α :=
  fun m => .done (question m) m

/-- Change the machine. -/
@[inline] def update (change : Machine → Machine) : Eval Unit :=
  fun m => .done () (change m)

/-- Make an object in the machine. -/
@[inline] def make {α : Type} (maker : Machine → α × Machine) : Eval α :=
  fun m =>
    let (a, m) := maker m
    .done a m

/-- A result, or a failure. -/
@[inline] def ofExcept {α : Type} (result : Except Fault α) : Eval α :=
  match result with
  | .ok a => pure a
  | .error fault => fail fault

/-- Carry out an operation on the machine that may fail. -/
@[inline] def attempt {α : Type} (operation : Machine → Attempt Machine α) : Eval α :=
  fun m =>
    let (result, m) := operation m
    ofExcept result m

/-- Print a line. -/
def printLine (line : String) : Eval Unit :=
  update fun m => { m with output := m.output ++ line ++ "\n" }

/-- Create or overwrite a binding in the current scope. -/
def define (name : String) (value : Value) (isConst : Bool) : Eval Unit :=
  update fun m => m.define m.current ⟨name, value, isConst⟩

/-- The value of a name in the current scope. -/
def lookup (name : String) : Eval Value :=
  fun m => ofExcept (m.scopes.value m.current name) m

/-- Store a value in the binding of a name. -/
def assign (name : String) (value : Value) : Eval Unit :=
  attempt fun m => m.assign m.current name value

end Primitives

section Brackets

/-- Make another scope current, and the present one again at the end. -/
@[inline] def inScope {α : Type} (scope : ScopeId) (p : Eval α) : Eval α :=
  fun m =>
    let previous := m.current
    match p { m with current := scope } with
    | .done a m => .done a { m with current := previous }
    | .stopped why m => .stopped why { m with current := previous }

/-- Run in a new scope inside `parent`, which may be given bindings first. -/
@[inline] def inNewScope
    {α : Type}
    (parent : ScopeId)
    (bindings : List Binding)
    (p : Eval α) :
    Eval α := do
  let scope ← make fun m => m.newScope parent
  update fun m => bindings.foldl (fun m b => m.define scope b) m
  inScope scope p

/-- Run in a new scope inside the current one. -/
@[inline] def inInnerScope {α : Type} (bindings : List Binding) (p : Eval α) : Eval α := do
  let parent ← ask (·.current)
  inNewScope parent bindings p

/-- Enter a call, and leave it at the end. -/
@[inline] def inCall {α : Type} (frame : Frame) (p : Eval α) : Eval α :=
  fun m =>
    match p { m with frames := frame :: m.frames } with
    | .done a m => .done a { m with frames := m.frames.tail }
    | .stopped why m => .stopped why { m with frames := m.frames.tail }

end Brackets

section Places

/-- Locate a fault at an expression, unless it was located further in. -/
@[inline] def locating {α : Type} (span : Span) (p : Eval α) : Eval α :=
  fun m =>
    match p m with
    | .stopped (.failed f) m => .stopped (.failed (f.locate span)) m
    | outcome => outcome

/-- The end of a statement: a thrown value becomes a signal. A fault is located and traced, and
also becomes a thrown value, its message, if faults are to be caught; an overflow of the stack
never does. -/
@[inline] def settle (catchFaults : Bool) (span : Span) (p : Eval Signal) : Eval Signal :=
  fun m =>
    match p m with
    | .done signal m => .done signal m
    | .stopped (.thrown t) m => .done (.thrown t) m
    | .stopped (.failed f) m =>
        let f := f.locate span
        let site := (f.label.map (·.1)).getD span
        let f := f.attachTrace site m.frames
        if catchFaults && f.fault.kind != .stackOverflow then
          .done (.thrown ⟨.string f.fault.message, f.trace, site⟩) m
        else
          .stopped (.failed f) m
    | .stopped .exhausted m => .stopped .exhausted m
    | .stopped .outOfFuel m => .stopped .outOfFuel m

end Places

end Eval

end Lox
