import Lox.Eval.Step
import Lox.Options
import Lox.Parse

/-!
# Sessions

A session runs sources one after another on one machine. A source is rejected before it runs, fails
while it runs, or is completed; `RunResult` says which, with everything that was written.
-/

namespace Lox

namespace TraceEntry

/-- The position that a trace entry names, if it is known. -/
def position? (entry : TraceEntry) (sources : SourceMap) : Option Position :=
  entry.site.bind sources.position?

/-- A trace entry as a note of a diagnostic. -/
def note (entry : TraceEntry) (sources : SourceMap) : String :=
  match entry.position? sources with
  | some position => s!"at {entry.function} (line {position.text})"
  | none => s!"at {entry.function}"

end TraceEntry

/-- The diagnostic of a fault that was not caught. -/
def Failure.diagnostic (f : Failure) (sources : SourceMap) : Diagnostic :=
  let labels :=
    match f.label with
    | some (span, caption) => [Label.main span caption]
    | none => []
  .of f.fault.kind.code f.fault.message labels (f.trace.map (·.note sources)) f.fault.kind.help?

/-- The diagnostic of a thrown value that was not caught; `text` is the text of the value. -/
def Thrown.diagnostic (t : Thrown) (text : String) (sources : SourceMap) : Diagnostic :=
  .of "LOX4001" s!"uncaught exception: {text}" [.main t.span "thrown here"]
    (t.trace.map (·.note sources)) (some "wrap the code in try/catch to handle it")

/-- How a run ends. A thrown value comes with its text. -/
inductive Ending
  | completed
  | rejected (errors : List StaticError)
  | failed (f : Failure)
  | uncaught (t : Thrown) (text : String)
  | unfinished
deriving DecidableEq

namespace Ending

/-- The exit code of a run. A run that was given up for lack of fuel counts as a failure. -/
def exitCode : Ending → Nat
  | completed => 0
  | rejected _ => 65
  | failed _ | uncaught _ _ | unfinished => 70

/-- What is written about the end of a run: reports of static errors end with a summary, and a
failure at run time is one report. -/
def report (ending : Ending) (reporter : Reporter) (sources : SourceMap) : String :=
  match ending with
  | completed | unfinished => ""
  | rejected errors =>
      let (reporter, text) := reporter.emitAll sources (errors.map (·.diagnostic))
      text ++ reporter.summary
  | failed f => (reporter.emit sources (f.diagnostic sources)).2
  | uncaught t text => (reporter.emit sources (t.diagnostic text sources)).2

end Ending

/-- What a run leaves behind: how it ended, what the program printed and what was reported. -/
structure RunResult where
  ending : Ending
  stdout : String
  stderr : String
deriving DecidableEq

namespace Machine

/-- Take out what has been printed. -/
def takeOutput (m : Machine) : String × Machine :=
  (m.output, { m with output := "" })

/-- The machine after a run that was given up in the middle of its calls. -/
def reset (m : Machine) : Machine :=
  { m with frames := [], current := globalScope }

/-- The global bindings of the program. -/
def globals (m : Machine) : List Binding :=
  (m.scopes.get globalScope).bindings

end Machine

namespace Eval

/-- Print the value of an expression statement that was just completed. -/
def echoValue : Stmt → Eval Unit
  | .expression .. => do
      printLine (← ask fun m => m.text m.lastValue)
  | _ => return ()

/-- Execute the statements of a program. The answer is a thrown value that nothing caught. -/
def runStatements (g : Evaluator) (echo : Bool) : List Stmt → Eval (Option Thrown)
  | [] => return none
  | stmt :: rest => do
      match ← g.execute stmt with
      | .thrown t => return some t
      | _ =>
          if echo then
            echoValue stmt
          runStatements g echo rest

end Eval

/-- Run a program on a machine. -/
def Program.run
    (program : Program)
    (limits : Limits)
    (echo : Bool)
    (m : Machine) :
    Ending × Machine :=
  let g := Evaluator.ofRoom limits (Evaluator.roomFor limits.maxCallDepth)
  match Eval.runStatements g echo program.statements m with
  | .done none m => (.completed, m)
  | .done (some t) m => (.uncaught t (m.text t.payload), m)
  | .stopped (.thrown t) m => (.uncaught t (m.text t.payload), m)
  | .stopped (.failed f) m => (.failed f, m)
  | .stopped .exhausted m => (.failed ⟨.hostDepth, none, []⟩, m.reset)
  | .stopped .outOfFuel m => (.unfinished, m.reset)

/-- A session: its settings, the sources it has read and its machine. -/
structure Session where
  options : Options
  /-- How often a loop may be repeated. -/
  fuel : Nat
  /-- Do reports go to a terminal that wants colour? -/
  terminal : Bool
  sources : SourceMap
  machine : Machine

namespace Session

/-- A session that has read nothing yet. -/
def new
    (options : Options)
    (fuel : Nat)
    (terminal : Bool)
    (sources : SourceMap)
    (clock : Nat → Float) :
    Session :=
  ⟨options, fuel, terminal, sources, Machine.initial clock⟩

/-- What runs in this session are allowed. -/
def limits (s : Session) : Limits :=
  ⟨s.options.maxCallDepth, s.options.catchFaults, s.fuel⟩

/-- The reporter of one run. -/
def reporter (s : Session) : Reporter :=
  Reporter.new (s.options.color.enabled s.terminal) s.options.maxErrors

/-- Run a source. With `echo`, the value of each expression statement at the top level is printed.
-/
def run (s : Session) (source path : String) (echo : Bool) : RunResult × Session :=
  let (sources, file) := s.sources.add path source
  match Program.ofText file source.toList s.options.collectAll with
  | .error errors =>
      let ending := Ending.rejected errors
      (⟨ending, "", ending.report s.reporter sources⟩, { s with sources := sources })
  | .ok program =>
      let (ending, machine) := program.run s.limits echo s.machine
      let (stdout, machine) := machine.takeOutput
      (⟨ending, stdout, ending.report s.reporter sources⟩,
        { s with sources := sources, machine := machine })

end Session

end Lox
