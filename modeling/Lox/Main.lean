import Lox.CommandLine

/-!
# The program

Reads arguments, environment, files and input, and writes what the library answers.
-/

namespace Lox

open CommandLine

/-- The most repetitions of a loop. -/
def programFuel : Nat := 1000000000000

/-- The text that `--help` asks for. -/
def usageText : String :=
  "usage: lox [-h] [--max-depth N] [--catch-runtime-errors] [--first-error-only]\n" ++
  "           [--color \x7bnever,always,auto\x7d] [--max-errors N] [--verbose]\n" ++
  "           [--log-file LOG_FILE] [script]\n"

/-- The number by which the system reports that a file is a directory. -/
def directoryCode : UInt32 := 21

/-- Why the system refuses to read a file. -/
def readFailure (e : IO.Error) : ReadFailure :=
  match e with
  | .permissionDenied .. => .denied
  | .inappropriateType _ code _ => if code = directoryCode then .isDirectory else .notDirectory
  | .invalidArgument .. => .nameTooLong
  | _ => .missing

/-- Read a script. -/
def readScript (path : String) : IO (Except ReadFailure String) := do
  try
    let bytes ← IO.FS.readBinFile path
    return decodeSource bytes.toList
  catch e =>
    return .error (readFailure e)

/-- Answer lines of the input until one ends the session. -/
partial def converseWith (s : Session) : IO Unit := do
  let stdout ← IO.getStdout
  stdout.putStr Interactive.prompt
  stdout.flush
  let line ← (← IO.getStdin).getLine
  let input :=
    if line.isEmpty then Interactive.Input.endOfInput
    else .line (if line.endsWith "\n" then String.ofList line.toList.dropLast else line)
  let (reply, s) := Interactive.feed s input
  stdout.putStr reply.stdout
  (← IO.getStderr).putStr reply.stderr
  if reply.goesOn then
    converseWith s

/-- A fresh session in the present directory. -/
def openSession (options : Options) (noColor : Bool) : IO Session := do
  let directory ← IO.currentDir
  let terminal ← (← IO.getStderr).isTty
  let start ← IO.monoMsNow
  let clock := fun (n : Nat) => (Float.ofNat start) / 1000.0 + (Float.ofNat n) / 1000000.0
  return .new options programFuel (terminal && !noColor) (.empty directory.toString true) clock

end Lox

open Lox Lox.CommandLine in
/-- Run the program. -/
def main (argv : List String) : IO UInt32 := do
  let depth ← IO.getEnv Environment.depthVariable
  let catches ← IO.getEnv Environment.catchVariable
  let noColor ← IO.getEnv Environment.noColorVariable
  let env : Lox.Environment := ⟨depth, catches, noColor.isSome⟩
  match request env argv with
  | .error e => do
      (← IO.getStderr).putStr (usageText ++ "lox: error: " ++ e.message ++ "\n")
      return UInt32.ofNat usageCode
  | .ok .help => do
      (← IO.getStdout).putStr usageText
      return 0
  | .ok (.interactive options) => do
      (← IO.getStdout).putStr Interactive.banner
      converseWith (← openSession options env.noColor)
      return 0
  | .ok (.script path options) => do
      let result := runScript (← openSession options env.noColor) path (← readScript path)
      (← IO.getStdout).putStr result.stdout
      (← IO.getStderr).putStr result.stderr
      return UInt32.ofNat result.exitCode
