import Lox.CommandLine.Arguments
import Lox.Session.Interactive
import Lox.Text.Utf8

/-!
# The command line

What a call of the program does, as a function of its arguments, its environment and the files it
finds: refuse the arguments, run a script, or hold an interactive session.
-/

namespace Lox.CommandLine

section Files

/-- Why a file cannot be read. -/
inductive ReadFailure
  | missing
  | isDirectory
  | notDirectory
  | denied
  | nameTooLong
  | malformed (m : Text.Utf8.Malformed)
deriving DecidableEq

/-- The reason for a failed reading of the file at `path`. -/
def ReadFailure.message (path : String) : ReadFailure → String
  | missing => s!"[Errno 2] No such file or directory: {Text.quoted path}"
  | isDirectory => s!"[Errno 21] Is a directory: {Text.quoted path}"
  | notDirectory => s!"[Errno 20] Not a directory: {Text.quoted path}"
  | denied => s!"[Errno 13] Permission denied: {Text.quoted path}"
  | nameTooLong => s!"[Errno 36] File name too long: {Text.quoted path}"
  | malformed m => m.message

/-- Line ends as line feeds: a carriage return ends a line, and a line feed directly after it adds
nothing. The flag tells whether a carriage return was just met. -/
def normaliseLines (afterReturn : Bool) : List Char → List Char
  | [] => []
  | c :: rest =>
      if c = '\r' then '\n' :: normaliseLines true rest
      else if afterReturn && c = '\n' then normaliseLines false rest
      else c :: normaliseLines false rest

/-- The text of a file with the given bytes. -/
def decodeSource (bytes : List UInt8) : Except ReadFailure String :=
  match Text.Utf8.decode bytes with
  | .ok cs => .ok (String.ofList (normaliseLines false cs))
  | .error m => .error (.malformed m)

end Files

/-- What the program is asked to do. -/
inductive Request
  | help
  | interactive (options : Options)
  | script (path : String) (options : Options)

/-- What arguments and environment ask for. A faulty environment is refused even where an argument
overrides it. -/
def request (env : Environment) (argv : List String) : Except UsageError Request := do
  let arguments ← Arguments.read argv
  if arguments.help then
    return .help
  else
    let options : Except OptionError Options := do
      (← env.options).override arguments.overrides
    match options with
    | .error e => throw (.refused e)
    | .ok options =>
        match arguments.script with
        | none => return .interactive options
        | some path => return if path = "-" then .interactive options else .script path options

/-- What a call leaves behind. -/
structure Result where
  exitCode : Nat
  stdout : String
  stderr : String
deriving DecidableEq

/-- The exit code of a call that cannot read its script. -/
def unreadableCode : Nat := 66

/-- The exit code of a call with faulty arguments. -/
def usageCode : Nat := 2

/-- Run a script whose reading had the given outcome, in a fresh session. -/
def runScript (s : Session) (path : String) (content : Except ReadFailure String) : Result :=
  match content with
  | .error failure =>
      ⟨unreadableCode, "", s!"Error: cannot read '{path}': {failure.message path}\n"⟩
  | .ok source =>
      let (result, _) := s.run source path false
      ⟨result.ending.exitCode, result.stdout, result.stderr⟩

/-- The lines of an input, each without its line feed; nothing follows the last line feed. -/
def inputLines (input : String) : List String :=
  let lines := (splitLines input.toList).map String.ofList
  match lines.getLast? with
  | some "" => lines.dropLast
  | _ => lines

/-- Hold an interactive session on a given input; the prompts are part of what is written. -/
def runInteractive (s : Session) (input : String) : Result :=
  let (replies, _) := Interactive.converse s ((inputLines input).map .line)
  let stdout := replies.map fun reply => Interactive.prompt ++ reply.stdout
  ⟨0, Interactive.banner ++ String.join stdout, String.join (replies.map (·.stderr))⟩

end Lox.CommandLine
