import Lox.Number
import Lox.Source.Span
import Lox.Text.Quoted

/-!
# Tokens

The kinds of tokens, the keywords, and tokens with their lexeme, value and place.
-/

namespace Lox

/-- A value that a program can write down directly. -/
inductive Literal
  | nil
  | boolean (b : Bool)
  | number (x : Float)
  | string (s : String)
deriving DecidableEq

/-- The literal in its debug form: texts quoted, numbers so that they read back. -/
def Literal.debug : Literal → String
  | .nil => "None"
  | .boolean true => "True"
  | .boolean false => "False"
  | .number x => Number.literalText x
  | .string s => Text.quoted s

/-- What a token is. -/
inductive TokenKind
  | number | string | identifier
  | varKeyword | constKeyword | ifKeyword | elseKeyword | whileKeyword | doKeyword | forKeyword
  | breakKeyword | continueKeyword | funKeyword | returnKeyword | classKeyword | thisKeyword
  | superKeyword | tryKeyword | catchKeyword | finallyKeyword | throwKeyword | printKeyword
  | dumpKeyword | trueKeyword | falseKeyword | nilKeyword | andKeyword | orKeyword
  | plus | minus | star | slash | power | percent | bang | assign | equal | notEqual | less
  | lessEqual | greater | greaterEqual | arrow | question
  | leftParen | rightParen | leftBrace | rightBrace | leftBracket | rightBracket | comma
  | semicolon | dot | colon
  | endOfInput
deriving DecidableEq

/-- The coarse classes of tokens. -/
inductive TokenCategory
  | literal | identifier | keyword | operator | punctuation | endOfInput
deriving DecidableEq

namespace TokenKind

/-- The name of a kind in listings. -/
def name : TokenKind → String
  | number => "NUMBER" | string => "STRING" | identifier => "IDENTIFIER"
  | varKeyword => "VAR" | constKeyword => "CONST" | ifKeyword => "IF" | elseKeyword => "ELSE"
  | whileKeyword => "WHILE" | doKeyword => "DO" | forKeyword => "FOR" | breakKeyword => "BREAK"
  | continueKeyword => "CONTINUE" | funKeyword => "FUN" | returnKeyword => "RETURN"
  | classKeyword => "CLASS" | thisKeyword => "THIS" | superKeyword => "SUPER"
  | tryKeyword => "TRY" | catchKeyword => "CATCH" | finallyKeyword => "FINALLY"
  | throwKeyword => "THROW" | printKeyword => "PRINT" | dumpKeyword => "DUMP"
  | trueKeyword => "TRUE" | falseKeyword => "FALSE" | nilKeyword => "NIL" | andKeyword => "AND"
  | orKeyword => "OR"
  | plus => "PLUS" | minus => "MINUS" | star => "STAR" | slash => "SLASH" | power => "POWER"
  | percent => "PERCENT" | bang => "BANG" | assign => "ASSIGN" | equal => "EQUAL"
  | notEqual => "NOT_EQUAL" | less => "LESS" | lessEqual => "LESS_EQUAL" | greater => "GREATER"
  | greaterEqual => "GREATER_EQUAL" | arrow => "ARROW" | question => "QUESTION"
  | leftParen => "LEFT_PAREN" | rightParen => "RIGHT_PAREN" | leftBrace => "LEFT_BRACE"
  | rightBrace => "RIGHT_BRACE" | leftBracket => "LEFT_BRACKET"
  | rightBracket => "RIGHT_BRACKET" | comma => "COMMA" | semicolon => "SEMICOLON" | dot => "DOT"
  | colon => "COLON"
  | endOfInput => "EOF"

/-- The class of a kind. -/
def category : TokenKind → TokenCategory
  | number | string => .literal
  | identifier => .identifier
  | varKeyword | constKeyword | ifKeyword | elseKeyword | whileKeyword | doKeyword | forKeyword
  | breakKeyword | continueKeyword | funKeyword | returnKeyword | classKeyword | thisKeyword
  | superKeyword | tryKeyword | catchKeyword | finallyKeyword | throwKeyword | printKeyword
  | dumpKeyword | trueKeyword | falseKeyword | nilKeyword | andKeyword | orKeyword => .keyword
  | plus | minus | star | slash | power | percent | bang | assign | equal | notEqual | less
  | lessEqual | greater | greaterEqual | arrow | question => .operator
  | leftParen | rightParen | leftBrace | rightBrace | leftBracket | rightBracket | comma
  | semicolon | dot | colon => .punctuation
  | endOfInput => .endOfInput

/-- The value that a keyword stands for, if it is a truth value. -/
def truthValue? : TokenKind → Option Literal
  | trueKeyword => some (.boolean true)
  | falseKeyword => some (.boolean false)
  | _ => none

end TokenKind

/-- The name of a class in listings. -/
def TokenCategory.name : TokenCategory → String
  | literal => "literal"
  | identifier => "identifier"
  | keyword => "keyword"
  | operator => "operator"
  | punctuation => "punctuation"
  | endOfInput => "end-of-input"

/-- The reserved words. -/
def keywords : List (String × TokenKind) :=
  [("var", .varKeyword), ("const", .constKeyword), ("if", .ifKeyword), ("else", .elseKeyword),
    ("while", .whileKeyword), ("do", .doKeyword), ("for", .forKeyword),
    ("break", .breakKeyword), ("continue", .continueKeyword), ("fun", .funKeyword),
    ("return", .returnKeyword), ("class", .classKeyword), ("this", .thisKeyword),
    ("super", .superKeyword), ("try", .tryKeyword), ("catch", .catchKeyword),
    ("finally", .finallyKeyword), ("throw", .throwKeyword), ("print", .printKeyword),
    ("dump", .dumpKeyword), ("true", .trueKeyword), ("false", .falseKeyword),
    ("nil", .nilKeyword), ("and", .andKeyword), ("or", .orKeyword)]

/-- The kind of a word: a keyword if it is reserved, otherwise an identifier. -/
def wordKind (word : String) : TokenKind :=
  (keywords.lookup word).getD .identifier

/-- A token: its kind, its text, its value if it has one, and its place. -/
structure Token where
  kind : TokenKind
  lexeme : String
  literal : Option Literal
  position : Position
  span : Span
deriving DecidableEq

/-- The token in its debug form. -/
def Token.debug (token : Token) : String :=
  match token.literal with
  | some literal => s!"Token({token.kind.name}, '{token.lexeme}', {literal.debug})"
  | none => s!"Token({token.kind.name}, '{token.lexeme}')"

end Lox
