import Lox.Decimal.Read
import Lox.Text.Letter
import Lox.Token

/-!
# Scanning

A source is cut into consecutive non-empty segments. `Piece.read` decides, from the first character
and the characters after it, how far a segment reaches and what it yields: a token, a fault, or
nothing for white space and comments. Scanning goes on after a fault; `Scan.untilFault` is the
reading that stops there.
-/

namespace Lox

/-- What is wrong with a segment. -/
inductive LexFault
  | unexpectedCharacter (c : Char)
  | unterminatedString
  | unterminatedComment
deriving DecidableEq

/-- What a segment yields. -/
inductive Piece
  | skipped
  | token (kind : TokenKind) (literal : Option Literal)
  | fault (cause : LexFault)
deriving DecidableEq

namespace Piece

/-- A token without a value. -/
def plain (kind : TokenKind) : Piece :=
  .token kind none

section Names

/-- May the character begin a name? -/
def beginsName (c : Char) : Bool :=
  Text.isLetter c || c == '_'

/-- May the character continue a name? -/
def continuesName (c : Char) : Bool :=
  Text.isLetter c || Text.isNumeric c || c == '_'

/-- A name or keyword; the answer includes the number of characters after the first. -/
def readName (c : Char) (rest : List Char) : Piece × Nat :=
  let tail := rest.takeWhile continuesName
  let kind := wordKind (String.ofList (c :: tail))
  (.token kind kind.truthValue?, tail.length)

end Names

section Numbers

/-- The fraction of a number, without its point: digits that follow a point directly. -/
def fractionDigits : List Char → List Char
  | '.' :: rest => rest.takeWhile Char.isDigit
  | _ => []

/-- A number: digits, and a point with more digits if at least one digit follows the point. -/
def readNumber (c : Char) (rest : List Char) : Piece × Nat :=
  let whole := rest.takeWhile Char.isDigit
  let fraction := fractionDigits (rest.dropWhile Char.isDigit)
  let pointLength := if fraction.isEmpty then 0 else 1
  (.token .number (some (.number (Decimal.ofDigits (c :: whole) fraction))),
    whole.length + pointLength + fraction.length)

end Numbers

section Strings

/-- The character that an escape stands for. -/
def escaped? : Char → Option Char
  | 'n' => some '\n'
  | 't' => some '\t'
  | 'r' => some '\r'
  | '0' => some '\x00'
  | '\\' => some '\\'
  | '"' => some '"'
  | '\'' => some '\''
  | _ => none

/-- The characters that a backslash and `c` stand for; an unknown escape keeps its backslash. -/
def unescape (c : Char) : List Char :=
  match escaped? c with
  | some d => [d]
  | none => ['\\', c]

/-- The body of a string up to its closing quote. `decoded` holds the characters read so far, the
last one first, and `taken` counts the characters of the source. -/
def readStringBody (quote : Char) : List Char → List Char → Nat → Piece × Nat
  | [], _, taken => (.fault .unterminatedString, taken)
  | [c], decoded, taken =>
      if c = quote then
        (.token .string (some (.string (String.ofList decoded.reverse))), taken + 1)
      else
        (.fault .unterminatedString, taken + 1)
  | c :: d :: rest, decoded, taken =>
      if c = quote then
        (.token .string (some (.string (String.ofList decoded.reverse))), taken + 1)
      else if c = '\\' then
        readStringBody quote rest ((unescape d).reverse ++ decoded) (taken + 2)
      else
        readStringBody quote (d :: rest) (c :: decoded) (taken + 1)

end Strings

section Comments

/-- The number of characters up to and including the first `*/`, if there is one. -/
def blockCommentLength? : List Char → Nat → Option Nat
  | '*' :: '/' :: _, taken => some (taken + 2)
  | _ :: rest, taken => blockCommentLength? rest (taken + 1)
  | [], _ => none

/-- What follows a slash: a comment to the end of the line, a block comment, or a division. -/
def readSlash : List Char → Piece × Nat
  | '/' :: rest => (.skipped, 1 + (rest.takeWhile (· != '\n')).length)
  | '*' :: rest =>
      match blockCommentLength? rest 0 with
      | some length => (.skipped, 1 + length)
      | none => (.fault .unterminatedComment, 1 + rest.length)
  | _ => (plain .slash, 0)

end Comments

/-- A token of one character, or of two if `second` follows. -/
def oneOrTwo (second : Char) (two one : Piece) : List Char → Piece × Nat
  | c :: _ => if c = second then (two, 1) else (one, 0)
  | [] => (one, 0)

/-- What follows an equals sign. -/
def readEquals : List Char → Piece × Nat
  | '=' :: _ => (plain .equal, 1)
  | '>' :: _ => (plain .arrow, 1)
  | _ => (plain .assign, 0)

/-- The kind of a character that is always a token by itself. -/
def single? : Char → Option TokenKind
  | '(' => some .leftParen
  | ')' => some .rightParen
  | '{' => some .leftBrace
  | '}' => some .rightBrace
  | '[' => some .leftBracket
  | ']' => some .rightBracket
  | ',' => some .comma
  | '.' => some .dot
  | ';' => some .semicolon
  | ':' => some .colon
  | '?' => some .question
  | '%' => some .percent
  | '+' => some .plus
  | '-' => some .minus
  | _ => none

/-- Is the character white space between tokens? -/
def isSpace (c : Char) : Bool :=
  c == ' ' || c == '\r' || c == '\t' || c == '\n'

/-- The segment that begins with `c` before `rest`: what it yields, and how many characters of
`rest` belong to it. -/
def read (c : Char) (rest : List Char) : Piece × Nat :=
  match single? c with
  | some kind => (plain kind, 0)
  | none =>
      if c = '*' then oneOrTwo '*' (plain .power) (plain .star) rest
      else if c = '/' then readSlash rest
      else if c = '=' then readEquals rest
      else if c = '!' then oneOrTwo '=' (plain .notEqual) (plain .bang) rest
      else if c = '<' then oneOrTwo '=' (plain .lessEqual) (plain .less) rest
      else if c = '>' then oneOrTwo '=' (plain .greaterEqual) (plain .greater) rest
      else if c = '&' then
        oneOrTwo '&' (plain .andKeyword) (.fault (.unexpectedCharacter c)) rest
      else if c = '|' then
        oneOrTwo '|' (plain .orKeyword) (.fault (.unexpectedCharacter c)) rest
      else if isSpace c then (.skipped, 0)
      else if c = '"' ∨ c = '\'' then readStringBody c rest [] 0
      else if c.isDigit then readNumber c rest
      else if beginsName c then readName c rest
      else (.fault (.unexpectedCharacter c), 0)

end Piece

/-- A segment of a source: where it begins, its characters and what it yields. -/
structure Segment where
  offset : Nat
  position : Position
  chars : List Char
  piece : Piece

/-- Cut a text into segments. The first `pending` characters belong to a segment that has been read
already; `done` holds the segments so far, the last one first. -/
def cutSegments : List Char → Nat → Nat → Position → List Segment → List Segment
  | [], _, _, _, done => done.reverse
  | c :: rest, pending + 1, offset, position, done =>
      cutSegments rest pending (offset + 1) (position.next c) done
  | c :: rest, 0, offset, position, done =>
      let (piece, extra) := Piece.read c rest
      let segment := ⟨offset, position, c :: rest.take extra, piece⟩
      cutSegments rest extra (offset + 1) (position.next c) (segment :: done)

/-- The segments of a text. -/
def segments (text : List Char) : List Segment :=
  cutSegments text 0 0 Position.first []

/-- A fault at its place. -/
structure LexError where
  cause : LexFault
  span : Span
deriving DecidableEq

/-- The characters that a fault is reported at: the beginning of an unterminated comment, otherwise
the whole segment. -/
def Segment.faultSpan (segment : Segment) (file : Nat) : LexFault → Span
  | .unterminatedComment => .ofLength file segment.offset 2
  | _ => .ofLength file segment.offset segment.chars.length

/-- A token or fault of a segment, if it yields one. -/
def Segment.event? (segment : Segment) (file : Nat) : Option (Except LexError Token) :=
  match segment.piece with
  | .skipped => none
  | .token kind literal =>
      some (.ok
        { kind := kind
          lexeme := String.ofList segment.chars
          literal := literal
          position := segment.position
          span := .ofLength file segment.offset segment.chars.length })
  | .fault cause => some (.error ⟨cause, segment.faultSpan file cause⟩)

/-- The token that ends every source. -/
def endToken (file : Nat) (text : List Char) : Token where
  kind := .endOfInput
  lexeme := ""
  literal := none
  position := Position.first.after text
  span := .ofLength file text.length 0

/-- The tokens and faults of a text in order, the end token last. -/
def scanEvents (file : Nat) (text : List Char) : List (Except LexError Token) :=
  (segments text).filterMap (·.event? file) ++ [.ok (endToken file text)]

/-- The outcome of scanning: the tokens, the collected faults, and the fault that stopped the
scan. -/
structure Scan where
  tokens : List Token
  errors : List LexError
  stopped : Option LexError

namespace Scan

/-- The scan that passes over every fault. -/
def collect (events : List (Except LexError Token)) : Scan where
  tokens := events.filterMap Except.toOption
  errors := events.filterMap fun
    | .error e => some e
    | .ok _ => none
  stopped := none

/-- The scan that ends at the first fault. -/
def untilFault : List (Except LexError Token) → Scan
  | [] => ⟨[], [], none⟩
  | .error e :: _ => ⟨[], [], some e⟩
  | .ok token :: events =>
      let later := untilFault events
      { later with tokens := token :: later.tokens }

/-- Scan a text in one of the two modes. -/
def ofText (file : Nat) (text : List Char) (collectAll : Bool) : Scan :=
  let events := scanEvents file text
  if collectAll then collect events else untilFault events

/-- The tokens of a text without faults; otherwise all of its faults, or just the first. -/
def tokenize
    (file : Nat)
    (text : List Char)
    (collectAll : Bool) :
    Except (List LexError) (List Token) :=
  let scan := ofText file text collectAll
  let errors := scan.errors ++ scan.stopped.toList
  if errors.isEmpty then .ok scan.tokens else .error errors

end Scan

end Lox
