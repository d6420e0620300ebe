import Lox.Diagnostic.Report
import Lox.Token.Scan

/-!
# Static errors

The causes for which a program is rejected before it runs, and the diagnostic of each: faults of the
scan and syntax errors.
-/

namespace Lox

/-- The most parameters of a function and the most arguments of a call. -/
def maxArguments : Nat := 255

/-- The most levels of nested statements and expressions. -/
def maxNesting : Nat := 200

/-- A construct that stands where it has no meaning. -/
inductive Misplaced
  | returnOutsideFunction
  | breakOutsideLoop
  | continueOutsideLoop
  | thisOutsideClass
  | superOutsideClass
  | superWithoutSuperclass
  | ownSuperclass
deriving DecidableEq

namespace Misplaced

/-- The complaint about a misplaced construct. -/
def message : Misplaced → String
  | returnOutsideFunction => "can't return from top-level code"
  | breakOutsideLoop => "'break' outside of a loop"
  | continueOutsideLoop => "'continue' outside of a loop"
  | thisOutsideClass => "can't use 'this' outside of a class"
  | superOutsideClass => "can't use 'super' outside of a class"
  | superWithoutSuperclass => "can't use 'super' in a class with no superclass"
  | ownSuperclass => "a class can't inherit from itself"

/-- What the construct needs. -/
def expected : Misplaced → String
  | returnOutsideFunction => "function body"
  | breakOutsideLoop => "enclosing loop"
  | continueOutsideLoop => "enclosing loop"
  | thisOutsideClass => "method body"
  | superOutsideClass => "method body"
  | superWithoutSuperclass => "subclass method"
  | ownSuperclass => "a different class name"

end Misplaced

/-- Something of which there may be only so much. -/
inductive Counted
  | parameters | arguments
deriving DecidableEq

/-- The noun for it. -/
def Counted.noun : Counted → String
  | parameters => "parameters"
  | arguments => "arguments"

/-- What is wrong with a sequence of tokens. -/
inductive ParseFault
  | expectedToken (expected : String) (reason : Option String)
  | expectedExpression
  | invalidTarget (target : Span)
  | misplaced (construct : Misplaced)
  | tooMany (what : Counted)
  | nestedTooDeeply
deriving DecidableEq

/-- A syntax error: its cause and the token at which it was found. -/
structure ParseError where
  fault : ParseFault
  token : Token
deriving DecidableEq

/-- A reason to reject a program. -/
inductive StaticError
  | lexical (error : LexError)
  | syntactic (error : ParseError)
deriving DecidableEq

namespace LexFault

/-- The code of a fault. -/
def code : LexFault → String
  | unexpectedCharacter _ => "LOX1001"
  | unterminatedString => "LOX1002"
  | unterminatedComment => "LOX1003"

/-- The complaint about a fault. -/
def message : LexFault → String
  | unexpectedCharacter c => s!"unexpected character '{c}'"
  | unterminatedString => "unterminated string literal"
  | unterminatedComment => "unterminated block comment"

/-- The caption at the place of a fault. -/
def caption : LexFault → String
  | unexpectedCharacter c => s!"unexpected character '{c}'"
  | unterminatedString => "string starts here"
  | unterminatedComment => "comment starts here"

/-- The hint for a fault. -/
def help : LexFault → String
  | unexpectedCharacter _ => "check for typos or unsupported characters"
  | unterminatedString => "add closing quote to terminate the string"
  | unterminatedComment => "close the comment with '*/'"

end LexFault

/-- The diagnostic of a scan fault. -/
def LexError.diagnostic (e : LexError) : Diagnostic :=
  .of e.cause.code e.cause.message [.main e.span e.cause.caption] [] (some e.cause.help)

/-- A token as a message names it. -/
def Token.found (token : Token) : String :=
  if token.lexeme = "" then "end of input" else token.lexeme

namespace ParseError

/-- The code of a syntax error. -/
def code (e : ParseError) : String :=
  match e.fault with
  | .expectedToken .. => "LOX2001"
  | .expectedExpression => "LOX2002"
  | .invalidTarget _ => "LOX2003"
  | .misplaced _ => "LOX2004"
  | .tooMany _ => "LOX2005"
  | .nestedTooDeeply => "LOX2006"

/-- What was expected instead of the offending token. -/
def expected (e : ParseError) : String :=
  match e.fault with
  | .expectedToken expected _ => expected
  | .expectedExpression => "expression"
  | .invalidTarget _ => "assignable expression"
  | .misplaced construct => construct.expected
  | .tooMany what => s!"at most {maxArguments} {what.noun}"
  | .nestedTooDeeply => s!"at most {maxNesting} levels of nesting"

/-- The complaint. -/
def message (e : ParseError) : String :=
  match e.fault with
  | .expectedToken expected reason =>
      reason.getD s!"expected {expected}, found '{e.token.found}'"
  | .expectedExpression => s!"expected expression, found '{e.token.found}'"
  | .invalidTarget _ => "invalid assignment target"
  | .misplaced construct => construct.message
  | .tooMany what => s!"can't have more than {maxArguments} {what.noun}"
  | .nestedTooDeeply => s!"code nested more than {maxNesting} levels deep"

/-- The caption at the place of the error. -/
def caption (e : ParseError) : String :=
  match e.fault with
  | .expectedToken expected _ => s!"expected {expected} here"
  | .expectedExpression => "expected expression here"
  | .invalidTarget _ => "cannot assign to this expression"
  | .misplaced construct => construct.message
  | .tooMany what => s!"{what.noun} limit exceeded"
  | .nestedTooDeeply => "nesting limit reached here"

/-- The hint, if there is one. -/
def help? (e : ParseError) : Option String :=
  match e.fault with
  | .expectedExpression => some "add a valid expression (variable, literal, or function call)"
  | .invalidTarget _ =>
      some "only variables, properties, and list or map elements can be assigned to"
  | .nestedTooDeeply => some "move inner parts into variables or functions"
  | .expectedToken .. | .misplaced _ | .tooMany _ => none

/-- The place of the error: an invalid target itself, otherwise the offending token. -/
def span (e : ParseError) : Span :=
  match e.fault with
  | .invalidTarget target => target
  | _ => e.token.span

/-- The diagnostic of a syntax error. -/
def diagnostic (e : ParseError) : Diagnostic :=
  .of e.code e.message [.main e.span e.caption] [] e.help?

end ParseError

namespace StaticError

/-- The diagnostic of a static error. -/
def diagnostic : StaticError → Diagnostic
  | lexical e => e.diagnostic
  | syntactic e => e.diagnostic

/-- A batch of errors as text: their number, and each of them on a line. -/
def batchText (errors : List StaticError) (sources : SourceMap) : String :=
  "\n".intercalate
    (Reporter.counted errors.length "error" ::
      errors.map fun e => e.diagnostic.summary sources)

end StaticError

end Lox
