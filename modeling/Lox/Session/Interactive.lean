import Lox.Session

/-!
# Interactive sessions

An interactive session is fed one input at a time: a line, an interruption or the end of the
input. All lines run on one machine; a bare expression may omit its semicolon, and its value is
printed.
-/

namespace Lox.Interactive

/-- What can be entered at a prompt. -/
inductive Input
  | line (text : String)
  | interrupted
  | endOfInput
deriving DecidableEq

/-- The prompt. -/
def prompt : String := "> "

/-- What is written before the first prompt. -/
def banner : String := "Lox interactive mode. Type 'exit' or press Ctrl-D to quit.\n"

/-- What is written in answer to an input, and whether the session goes on. -/
structure Reply where
  stdout : String
  stderr : String
  goesOn : Bool
deriving DecidableEq

/-- A line as it is run: without a semicolon or brace at its end it is given a semicolon. -/
def completed (line : String) : String :=
  match (Text.trimChars line.toList).getLast? with
  | some c => if c = ';' ∨ c = '\x7d' then line else line ++ ";"
  | none => line

/-- Answer one input. -/
def feed (s : Session) (input : Input) : Reply × Session :=
  match input with
  | .endOfInput => (⟨"\n", "", false⟩, s)
  | .interrupted => (⟨"\nUse 'exit' to quit.\n", "", true⟩, s)
  | .line line =>
      let stripped := Text.trim line
      if stripped = "exit" then
        (⟨"", "", false⟩, s)
      else if stripped = "" then
        (⟨"", "", true⟩, s)
      else
        let (result, s) := s.run (completed line) "<repl>" true
        (⟨result.stdout, result.stderr, true⟩, s)

/-- Answer inputs up to the one that ends the session; after the last of them the input ends. The
answer includes the number of inputs that were not read. -/
def converse (s : Session) : List Input → List Reply × Nat
  | [] => ([(feed s .endOfInput).1], 0)
  | input :: rest =>
      let (reply, s) := feed s input
      if reply.goesOn then
        let (replies, unread) := converse s rest
        (reply :: replies, unread)
      else
        ([reply], rest.length)

end Lox.Interactive
