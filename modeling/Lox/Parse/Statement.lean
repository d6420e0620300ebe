import Lox.Parse.Expression

/-!
# Reading statements

Statements and declarations. Each reader but `declaration` and `statement` begins after the
keyword of its construct, which it is given.
-/

namespace Lox.Parse

variable (g : Grammar)

section Declarations

/-- The initial value of a variable, which a constant must have. -/
def initialValue (isConst : Bool) : Parse (Option Expr) := do
  if isConst then
    let _ ← consume .assign "'=' after constant name" (some "a constant must be initialized")
    return some (← g.expression)
  else if ← accept .assign then
    return some (← g.expression)
  else
    return none

/-- A variable or a constant. -/
def varDeclaration (keyword : Token) (isConst : Bool) : Parse Stmt := do
  let name ← require .identifier "variable name"
  let initial ← initialValue g isConst
  let _ ← require .semicolon "';' after variable declaration"
  return .declare name.lexeme initial isConst (← spanFrom keyword)

/-- A named function. -/
def functionDeclaration (keyword : Token) : Parse Stmt := do
  let name ← require .identifier "function name"
  let (params, body) ← g.functionRest
  return .function (.mk name.lexeme params body (← spanFrom keyword))

/-- A method: a function without its keyword. -/
def method : Parse FunctionDecl := do
  let name ← require .identifier "method name"
  let (params, body) ← g.functionRest
  return .mk name.lexeme params body (← spanFrom name)

/-- The superclass of the class `name`, if one is given. -/
def superclass (name : Token) : Parse (Option (String × Span)) := do
  if ← accept .less then
    let parent ← require .identifier "superclass name"
    reportIf (parent.lexeme == name.lexeme) .ownSuperclass parent
    return some (parent.lexeme, parent.span)
  else
    return none

/-- A class with its methods. -/
def classDeclaration (keyword : Token) : Parse Stmt := do
  let name ← require .identifier "class name"
  let parent ← superclass name
  let _ ← require .leftBrace "'\x7b' before class body"
  let stop : Parse Bool := do
    return (← check .rightBrace) || (← atEnd)
  let methods ← within (Context.enterClass parent.isSome)
    (manyUntil stop (method g) (← budget) [])
  let _ ← require .rightBrace "'\x7d' after class body"
  return .classDecl name.lexeme parent methods (← spanFrom keyword)

end Declarations

section Statements

/-- An expression for its effect. -/
def expressionStatement : Parse Stmt := do
  let e ← g.expression
  let _ ← require .semicolon "';' after expression"
  return .expression e (e.span.merge (← previous).span)

/-- The output of a value. -/
def printStatement (keyword : Token) : Parse Stmt := do
  let value ← g.expression
  let _ ← require .semicolon "';' after value"
  return .print value (← spanFrom keyword)

/-- A choice between two statements. -/
def ifStatement (keyword : Token) : Parse Stmt := do
  let _ ← require .leftParen "'(' after 'if'"
  let condition ← g.expression
  let _ ← require .rightParen "')' after if condition"
  let thenBranch ← g.statement
  let elseBranch ← if ← accept .elseKeyword then some <$> g.statement else pure none
  return .ifElse condition thenBranch elseBranch (← spanFrom keyword)

/-- The body of a loop. -/
def loopBody : Parse Stmt :=
  within Context.enterLoop g.statement

/-- A loop that tests before its body. -/
def whileStatement (keyword : Token) : Parse Stmt := do
  let _ ← require .leftParen "'(' after 'while'"
  let condition ← g.expression
  let _ ← require .rightParen "')' after while condition"
  let body ← loopBody g
  return .whileLoop condition body (← spanFrom keyword)

/-- A loop that tests after its body. -/
def doWhileStatement (keyword : Token) : Parse Stmt := do
  let body ← loopBody g
  let _ ← require .whileKeyword "'while' after do body"
  let _ ← require .leftParen "'(' after 'while'"
  let condition ← g.expression
  let _ ← require .rightParen "')' after do-while condition"
  let _ ← require .semicolon "';' after do-while statement"
  return .doWhile body condition (← spanFrom keyword)

/-- The first clause of a `for` statement with its semicolon. -/
def forInitial : Parse (Option Stmt) := do
  if ← accept .semicolon then
    return none
  else if ← check .varKeyword then
    let keyword ← advance
    return some (← varDeclaration g keyword false)
  else
    return some (← expressionStatement g)

/-- An expression that may be missing before a token of this kind. -/
def optionalBefore (kind : TokenKind) : Parse (Option Expr) := do
  if ← check kind then return none else return some (← g.expression)

/-- A loop with a first clause, a condition and an increment. -/
def forStatement (keyword : Token) : Parse Stmt := do
  let _ ← require .leftParen "'(' after 'for'"
  let initial ← forInitial g
  let condition ← optionalBefore g .semicolon
  let _ ← require .semicolon "';' after loop condition"
  let increment ← optionalBefore g .rightParen
  let _ ← require .rightParen "')' after for clauses"
  let body ← loopBody g
  return .forLoop initial condition increment body (← spanFrom keyword)

/-- The end of a call. -/
def returnStatement (keyword : Token) : Parse Stmt := do
  reportIf (!(← context).inFunction) .returnOutsideFunction keyword
  let value ← optionalBefore g .semicolon
  let _ ← require .semicolon "';' after return value"
  return .returnValue value (← spanFrom keyword)

/-- The end of a loop. -/
def breakStatement (keyword : Token) : Parse Stmt := do
  reportIf (!(← context).inLoop) .breakOutsideLoop keyword
  let _ ← require .semicolon "';' after 'break'"
  return .breakLoop (← spanFrom keyword)

/-- The end of one iteration. -/
def continueStatement (keyword : Token) : Parse Stmt := do
  reportIf (!(← context).inLoop) .continueOutsideLoop keyword
  let _ ← require .semicolon "';' after 'continue'"
  return .continueLoop (← spanFrom keyword)

/-- The clause that receives a thrown value, if there is one. -/
def catchClause : Parse (Option CatchClause) := do
  if ← accept .catchKeyword then
    let _ ← require .leftParen "'(' after 'catch'"
    let name ← require .identifier "exception variable name"
    let _ ← require .rightParen "')' after exception variable"
    let _ ← require .leftBrace "'\x7b' after catch clause"
    return some (.mk name.lexeme (← g.block))
  else
    return none

/-- The clause that runs in any case, if there is one. -/
def finallyClause : Parse (Option (List Stmt)) := do
  if ← accept .finallyKeyword then
    let _ ← require .leftBrace "'\x7b' after 'finally'"
    return some (← g.block)
  else
    return none

/-- A block with a clause for thrown values, one that runs in any case, or both. -/
def tryStatement (keyword : Token) : Parse Stmt := do
  let _ ← require .leftBrace "'\x7b' after 'try'"
  let body ← g.block
  let handler ← catchClause g
  let cleanup ← finallyClause g
  if handler.isNone && cleanup.isNone then
    fail (.expectedToken "'catch' or 'finally'" none)
  else
    return .tryBlock body handler cleanup (← spanFrom keyword)

/-- The throwing of a value. -/
def throwStatement (keyword : Token) : Parse Stmt := do
  let value ← g.expression
  let _ ← require .semicolon "';' after thrown value"
  return .throwValue value (← spanFrom keyword)

/-- The listing of the visible bindings. -/
def dumpStatement (keyword : Token) : Parse Stmt := do
  let _ ← require .semicolon "';' after 'dump'"
  return .dump (← spanFrom keyword)

/-- A block of statements. -/
def blockStatement (start : Token) : Parse Stmt := do
  let statements ← g.block
  return .block statements (← spanFrom start)

/-- The reader of the statements that begin with a token of this kind. -/
def keywordStatement? : TokenKind → Option (Token → Parse Stmt)
  | .printKeyword => some (printStatement g)
  | .leftBrace => some (blockStatement g)
  | .ifKeyword => some (ifStatement g)
  | .whileKeyword => some (whileStatement g)
  | .doKeyword => some (doWhileStatement g)
  | .forKeyword => some (forStatement g)
  | .returnKeyword => some (returnStatement g)
  | .breakKeyword => some breakStatement
  | .continueKeyword => some continueStatement
  | .tryKeyword => some (tryStatement g)
  | .throwKeyword => some (throwStatement g)
  | .dumpKeyword => some dumpStatement
  | _ => none

/-- A statement. -/
def statement : Parse Stmt :=
  nested do
    match keywordStatement? g (← peek).kind with
    | some read => do
        let token ← advance
        read token
    | none => expressionStatement g

/-- A declaration or a statement, without recovery from a failure. -/
def declarationBody : Parse Stmt := do
  match (← peek).kind with
  | .varKeyword => do
      let keyword ← advance
      varDeclaration g keyword false
  | .constKeyword => do
      let keyword ← advance
      varDeclaration g keyword true
  | .funKeyword => do
      if ← checkNext .identifier then
        let keyword ← advance
        functionDeclaration g keyword
      else
        statement g
  | .classKeyword => do
      let keyword ← advance
      classDeclaration g keyword
  | _ => statement g

/-- A declaration or a statement; after a failure there is none, and the cursor is at the next
statement boundary. -/
def declaration : Parse (Option Stmt) :=
  recovering (declarationBody g)

end Statements

end Lox.Parse
