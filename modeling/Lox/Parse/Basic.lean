import Lox.StaticError
import Lox.Tree

/-!
# Reading tokens

A parser reads tokens at a cursor in a context and ends in one of three ways: with a result, with
a failure, from which the enclosing declaration recovers, or with the end of the whole parse. The
context is an argument, so what a construct does to it is undone when the construct ends, however
it ends.
-/

namespace Lox

/-- How deep bodies of arrow functions that are expressions may be nested. -/
def maxArrowNesting : Nat := 380

namespace Parse

/-- What encloses the construct that is being read. -/
structure Context where
  /-- Does reading go on after an error? -/
  collectAll : Bool
  inFunction : Bool
  inLoop : Bool
  /-- The innermost class, if there is one: does it have a superclass? -/
  classHasSuperclass : Option Bool
  /-- The number of enclosing statements and expressions. -/
  depth : Nat
  /-- The number of enclosing arrow functions whose bodies are expressions. -/
  arrows : Nat

/-- Outside of every construct. -/
def Context.outermost (collectAll : Bool) : Context where
  collectAll := collectAll
  inFunction := false
  inLoop := false
  classHasSuperclass := none
  depth := 0
  arrows := 0

/-- A place in a sequence of tokens, and the errors found before it. `rest` does not include the
token that ends the input. -/
structure Cursor where
  previous : Token
  rest : List Token
  final : Token
  errors : List ParseError

namespace Cursor

/-- The token at the cursor. -/
def current (s : Cursor) : Token :=
  s.rest.headD s.final

/-- Step over the token at the cursor; the end of the input is not passed. -/
def advance (s : Cursor) : Cursor :=
  match s.rest with
  | [] => s
  | token :: rest => { s with previous := token, rest := rest }

/-- Record an error. -/
def record (s : Cursor) (e : ParseError) : Cursor :=
  { s with errors := s.errors ++ [e] }

end Cursor

end Parse

/-- How reading ends: with a result, with a failure, or for good with the errors found. -/
inductive Parsed (α : Type)
  | ok (value : α) (s : Parse.Cursor)
  | fail (e : ParseError) (s : Parse.Cursor)
  | abort (errors : List ParseError)

/-- A reader of tokens. -/
def Parse (α : Type) :=
  Parse.Context → Parse.Cursor → Parsed α

namespace Parse

instance : Monad Parse where
  pure a := fun _ s => .ok a s
  bind p f := fun c s =>
    match p c s with
    | .ok a s => f a c s
    | .fail e s => .fail e s
    | .abort errors => .abort errors

section Primitives

/-- The context. -/
def context : Parse Context :=
  fun c s => .ok c s

/-- The token at the cursor. -/
def peek : Parse Token :=
  fun _ s => .ok s.current s

/-- The token that was read last. -/
def previous : Parse Token :=
  fun _ s => .ok s.previous s

/-- The tokens that have not been read. -/
def remaining : Parse (List Token) :=
  fun _ s => .ok s.rest s

/-- The tokens that have not been read, up to the one that ends the input. -/
def budget : Parse (List Token) :=
  fun _ s => .ok (s.final :: s.rest) s

/-- Is the cursor at the end of the input? -/
def atEnd : Parse Bool :=
  fun _ s => .ok s.rest.isEmpty s

/-- Is the token at the cursor of this kind? -/
def check (kind : TokenKind) : Parse Bool :=
  fun _ s => .ok ((s.rest.head?.map (·.kind)) == some kind) s

/-- Is the token after the cursor of this kind? -/
def checkNext (kind : TokenKind) : Parse Bool :=
  fun _ s => .ok ((s.rest[1]?.map (·.kind)) == some kind) s

/-- Read the token at the cursor. -/
def advance : Parse Token :=
  fun _ s => .ok s.advance.previous s.advance

/-- Read the token at the cursor if it is of this kind. -/
def accept (kind : TokenKind) : Parse Bool := do
  if ← check kind then
    let _ ← advance
    return true
  else
    return false

/-- Give up the construct that is being read. -/
def fail {α : Type} (fault : ParseFault) : Parse α :=
  fun _ s => .fail ⟨fault, s.current⟩ s

/-- Read a token of this kind, which is called `expected`; `reason` replaces the message if it is
missing. -/
def consume (kind : TokenKind) (expected : String) (reason : Option String) : Parse Token := do
  if ← check kind then advance else fail (.expectedToken expected reason)

/-- Read a token of this kind, which is called `expected`. -/
def require (kind : TokenKind) (expected : String) : Parse Token :=
  consume kind expected none

/-- Record an error without giving up; when only the first error is wanted, reading ends. -/
def report (e : ParseError) : Parse Unit :=
  fun c s =>
    if c.collectAll then .ok () (s.record e) else .abort (s.errors ++ [e])

/-- Record that the construct at `token` is misplaced, if it is. -/
def reportIf (isMisplaced : Bool) (construct : Misplaced) (token : Token) : Parse Unit :=
  if isMisplaced then report ⟨.misplaced construct, token⟩ else pure ()

/-- The code is nested too deeply at the cursor. -/
def tooDeep {α : Type} : Parse α :=
  fun _ s => .abort (s.errors ++ [⟨.nestedTooDeeply, s.current⟩])

/-- The span from the token `start` to the token that was read last. -/
def spanFrom (start : Token) : Parse Span :=
  return start.span.merge (← previous).span

end Primitives

section Contexts

/-- Read in a changed context. -/
def within {α : Type} (change : Context → Context) (p : Parse α) : Parse α :=
  fun c s => p (change c) s

/-- Read one level deeper, unless the limit is reached. -/
def nested {α : Type} (p : Parse α) : Parse α :=
  fun c s =>
    if maxNesting ≤ c.depth then tooDeep c s else p { c with depth := c.depth + 1 } s

/-- The context inside the body of a function: loops outside of it do not count. -/
def Context.enterFunction (c : Context) : Context :=
  { c with inFunction := true, inLoop := false }

/-- The context inside the body of a loop. -/
def Context.enterLoop (c : Context) : Context :=
  { c with inLoop := true }

/-- The context inside a class. -/
def Context.enterClass (hasSuperclass : Bool) (c : Context) : Context :=
  { c with classHasSuperclass := some hasSuperclass }

/-- Read the body of an arrow function that is an expression. -/
def nestedArrow {α : Type} (p : Parse α) : Parse α :=
  fun c s =>
    if maxArrowNesting ≤ c.arrows then tooDeep c s
    else p { c.enterFunction with arrows := c.arrows + 1 } s

end Contexts

section Repetition

/-- Read items until `stop` holds. The list of tokens bounds the repetitions; every item takes a
token, so those that have not been read are enough. -/
def manyUntil
    {α : Type}
    (stop : Parse Bool)
    (item : Parse α) :
    List Token → List α → Parse (List α)
  | [], done => pure done.reverse
  | _ :: left, done => do
      if ← stop then
        return done.reverse
      else
        let a ← item
        manyUntil stop item left (a :: done)

/-- Items separated by commas before a closing token; a comma may follow the last one. -/
def listBefore
    {α : Type}
    (close : TokenKind)
    (item : Parse α) :
    List Token → List α → Parse (List α)
  | [], done => pure done.reverse
  | _ :: left, done => do
      if ← check close then
        return done.reverse
      else
        let a ← item
        if ← accept .comma then
          listBefore close item left (a :: done)
        else
          return (a :: done).reverse

/-- One or more items separated by commas; every item beyond the limit is an error. -/
def countedList
    {α : Type}
    (what : Counted)
    (item : Parse α) :
    List Token → List α → Parse (List α)
  | [], done => pure done.reverse
  | _ :: left, done => do
      if maxArguments ≤ done.length then
        report ⟨.tooMany what, ← peek⟩
      let a ← item
      if ← accept .comma then
        countedList what item left (a :: done)
      else
        return (a :: done).reverse

/-- Items between parentheses, of which the closing one is not read. -/
def parenthesised
    {α : Type}
    (what : Counted)
    (item : Parse α) :
    Parse (List α) := do
  if ← check .rightParen then
    return []
  else
    countedList what item (← budget) []

/-- The names of parameters. -/
def parameters : Parse (List String) :=
  parenthesised .parameters do
    return (← require .identifier "parameter name").lexeme

end Repetition

section Recovery

/-- Does a token of this kind begin a statement that can be recognised by its first token? -/
def startsStatement : TokenKind → Bool
  | .classKeyword | .funKeyword | .varKeyword | .constKeyword | .forKeyword | .ifKeyword
  | .whileKeyword | .doKeyword | .printKeyword | .returnKeyword | .tryKeyword | .throwKeyword
  | .breakKeyword | .continueKeyword | .dumpKeyword => true
  | _ => false

/-- Does a token of this kind end a statement? -/
def endsStatement (kind : TokenKind) : Bool :=
  kind == .semicolon || kind == .rightBrace

/-- Pass over tokens up to the first one that begins a statement or follows the end of one. -/
def skipToBoundary (previous : Token) : List Token → Token × List Token
  | [] => (previous, [])
  | token :: rest =>
      if endsStatement previous.kind || startsStatement token.kind then
        (previous, token :: rest)
      else
        skipToBoundary token rest

/-- The next statement boundary after at least one token. -/
def Cursor.synchronize (s : Cursor) : Cursor :=
  let after := s.advance
  let (previous, rest) := skipToBoundary after.previous after.rest
  { after with previous := previous, rest := rest }

/-- Read a statement; after a failure record it and go on at the next statement boundary. -/
def recovering (p : Parse Stmt) : Parse (Option Stmt) :=
  fun c s =>
    match p c s with
    | .ok stmt s => .ok (some stmt) s
    | .abort errors => .abort errors
    | .fail e s =>
        match report e c s with
        | .ok _ s => .ok none s.synchronize
        | .fail e s => .fail e s
        | .abort errors => .abort errors

end Recovery

end Parse

end Lox
