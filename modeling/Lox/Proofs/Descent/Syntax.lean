import Lox.Proofs.Descent.Basic
import Lox.Proofs.Parse.Repetition

/-!
# Descending into expressions and statements

The readers of expressions, statements and declarations as descents, and the descent into a whole
program. Constructs inside a construct are read by calls, of which a descent is given only so many.
-/

namespace Lox.Descent

/-- What a reader may call, and how many turns each of its loops may take. -/
structure Calls where
  turns : Nat
  assignment : Descent Expr
  ternary : Descent Expr
  unary : Descent Expr
  statement : Descent Stmt
  declaration : Descent (Option Stmt)

namespace Calls

/-- A whole expression inside another construct. -/
def expression (g : Calls) : Descent Expr :=
  nested g.assignment

/-- The statements up to a closing brace, which is read; the opening brace has been read. -/
def block (g : Calls) : Descent (List Stmt) := do
  let stop : Descent Bool := do
    return (← check .rightBrace) || (← atEnd)
  let statements ← manyUntil g.turns stop g.declaration
  let _ ← require .rightBrace "'\x7d' after block"
  return statements.filterMap id

/-- The body of a function after its opening brace. -/
def functionBody (g : Calls) : Descent (List Stmt) :=
  inFunction (nested g.block)

/-- Parameters in parentheses and a body in braces. -/
def functionRest (g : Calls) : Descent (List String × List Stmt) := do
  let _ ← require .leftParen "'(' before parameters"
  let params ← parameters g.turns
  let _ ← require .rightParen "')' after parameters"
  let _ ← require .leftBrace "'\x7b' before function body"
  return (params, ← g.functionBody)

end Calls

variable (g : Calls)

section Primary

/-- An arrow function: parameters, an arrow, and a block or an expression, whose value is
returned. -/
def arrowFunction : Descent Expr := do
  let start ← advance
  let params ← parameters g.turns
  let _ ← require .rightParen "')' after parameters"
  let _ ← require .arrow "'=>' after parameters"
  let body ←
    if ← accept .leftBrace then
      g.functionBody
    else do
      let value ← nestedArrow g.assignment
      pure [Stmt.returnValue (some value) value.span]
  return .function params body (← spanFrom start)

/-- A method of the superclass, after `super`. -/
def superExpression (keyword : Token) : Descent Expr := do
  match (← counters).classStack with
  | [] => reportIf true .superOutsideClass keyword
  | false :: _ => reportIf true .superWithoutSuperclass keyword
  | true :: _ => pure ()
  let _ ← require .dot "'.' after 'super'"
  let method ← require .identifier "superclass method name"
  return .super method.lexeme (← spanFrom keyword)

/-- A key of a map literal: a name before a colon stands for itself. -/
def mapKey : Descent Expr := do
  if (← check .identifier) && (← checkNext .colon) then
    let token ← advance
    return .literal (.string token.lexeme) token.span
  else
    g.expression

/-- An entry of a map literal. -/
def mapEntry : Descent MapEntry := do
  let key ← mapKey g
  let _ ← require .colon "':' after map key"
  return .mk key (← g.expression)

/-- A list literal after its opening bracket. -/
def listLiteral (start : Token) : Descent Expr := do
  let elements ← listBefore g.turns .rightBracket g.expression
  let _ ← require .rightBracket "']' after list elements"
  return .list elements (← spanFrom start)

/-- A map literal after its opening brace. -/
def mapLiteral (start : Token) : Descent Expr := do
  let entries ← listBefore g.turns .rightBrace (mapEntry g)
  let _ ← require .rightBrace "'\x7d' after map entries"
  return .map entries (← spanFrom start)

/-- What follows an opening parenthesis that begins no arrow function. -/
def grouping : Descent Expr := do
  let _ ← advance
  let e ← g.expression
  let _ ← require .rightParen "')' after expression"
  return e

/-- A literal, a name, or an expression in brackets of its own. -/
def primary : Descent Expr := do
  let token ← peek
  match token.kind with
  | .trueKeyword => do
      let _ ← advance
      return .literal (.boolean true) token.span
  | .falseKeyword => do
      let _ ← advance
      return .literal (.boolean false) token.span
  | .nilKeyword => do
      let _ ← advance
      return .literal .nil token.span
  | .number | .string => do
      let _ ← advance
      return .literal (token.literal.getD .nil) token.span
  | .thisKeyword => do
      let _ ← advance
      reportIf (← counters).classStack.isEmpty .thisOutsideClass token
      return .this token.span
  | .superKeyword => do
      let _ ← advance
      superExpression token
  | .identifier => do
      let _ ← advance
      return .reference token.lexeme token.span
  | .funKeyword => do
      let _ ← advance
      let (params, body) ← g.functionRest
      return .function params body (← spanFrom token)
  | .leftParen => do
      if ← startsArrow then arrowFunction g else grouping g
  | .leftBracket => do
      let _ ← advance
      listLiteral g token
  | .leftBrace => do
      let _ ← advance
      mapLiteral g token
  | _ => fail .expectedExpression

end Primary

section Operators

/-- An expression with the call, property name or index that follows it. -/
def suffix (e : Expr) : Descent Expr := do
  match (← peek).kind with
  | .leftParen => do
      let _ ← advance
      let arguments ← parenthesised g.turns .arguments g.expression
      let paren ← require .rightParen "')' after arguments"
      return .call e arguments (e.span.merge paren.span)
  | .dot => do
      let _ ← advance
      let name ← require .identifier "property name after '.'"
      return .get e name.lexeme (e.span.merge name.span)
  | .leftBracket => do
      let _ ← advance
      let index ← g.expression
      let bracket ← require .rightBracket "']' after index"
      return .index e index (e.span.merge bracket.span)
  | _ => fail .expectedExpression

/-- A primary expression with its calls, property names and indices. -/
def call : Descent Expr := do
  let e ← primary g
  repeatWhile (do return Parse.startsSuffix (← peek).kind) (fun e => do return (← suffix g e, true))
    id g.turns e

/-- A power; its exponent may be a power or a signed operand. -/
def power : Descent Expr := do
  let base ← call g
  if ← accept .power then
    let exponent ← nested g.unary
    return .binary base .power exponent (base.span.merge exponent.span)
  else
    return base

/-- A power, perhaps behind signs. -/
def unary : Descent Expr := do
  match Parse.unaryOp? (← peek).kind with
  | some op => do
      let token ← advance
      let operand ← nested g.unary
      return .unary op operand (token.span.merge operand.span)
  | none => power g

/-- The turn that joins one more operand to the expression on its left. -/
def operandTurn
    (operand : Descent Expr)
    (join? : TokenKind → Option Parse.Join)
    (left : Expr) :
    Descent (Expr × Bool) := do
  match join? (← peek).kind with
  | some join => do
      let _ ← advance
      let right ← operand
      return (join left right (left.span.merge right.span), true)
  | none => fail .expectedExpression

/-- A level of operators that group from the left. -/
def leftAssociative
    (turns : Nat)
    (operand : Descent Expr)
    (join? : TokenKind → Option Parse.Join) :
    Descent Expr := do
  let first ← operand
  repeatWhile (do return (join? (← peek).kind).isSome) (operandTurn operand join?) id turns first

/-- Products. -/
def factor : Descent Expr := leftAssociative g.turns (unary g) Parse.factorOp?

/-- Sums. -/
def term : Descent Expr := leftAssociative g.turns (factor g) Parse.termOp?

/-- Comparisons by order. -/
def comparison : Descent Expr := leftAssociative g.turns (term g) Parse.comparisonOp?

/-- Comparisons for equality. -/
def equality : Descent Expr := leftAssociative g.turns (comparison g) Parse.equalityOp?

/-- Conjunctions. -/
def logicalAnd : Descent Expr := leftAssociative g.turns (equality g) Parse.andOp?

/-- Disjunctions. -/
def logicalOr : Descent Expr := leftAssociative g.turns (logicalAnd g) Parse.orOp?

/-- A condition with two branches, or no condition at all. -/
def ternary : Descent Expr := do
  let condition ← logicalOr g
  if ← accept .question then
    let thenBranch ← g.expression
    let _ ← require .colon "':' in conditional expression"
    let elseBranch ← nested g.ternary
    return .conditional condition thenBranch elseBranch (condition.span.merge elseBranch.span)
  else
    return condition

/-- An assignment, or an expression without one. An invalid target is an error, but both sides have
been read, so reading goes on behind them. -/
def assignment : Descent Expr := do
  let target ← ternary g
  if ← check .assign then
    let equals ← advance
    let value ← nested g.assignment
    match Parse.assignmentTo? target value (target.span.merge value.span) with
    | some e => return e
    | none =>
        report ⟨.invalidTarget target.span, equals⟩
        return target
  else
    return target

end Operators

section Declarations

/-- The initial value of a variable, which a constant must have. -/
def initialValue (isConst : Bool) : Descent (Option Expr) := do
  if isConst then
    let _ ← consume .assign "'=' after constant name" (some "a constant must be initialized")
    return some (← g.expression)
  else if ← accept .assign then
    return some (← g.expression)
  else
    return none

/-- A variable or a constant. -/
def varDeclaration (keyword : Token) (isConst : Bool) : Descent Stmt := do
  let name ← require .identifier "variable name"
  let initial ← initialValue g isConst
  let _ ← require .semicolon "';' after variable declaration"
  return .declare name.lexeme initial isConst (← spanFrom keyword)

/-- A named function. -/
def functionDeclaration (keyword : Token) : Descent Stmt := do
  let name ← require .identifier "function name"
  let (params, body) ← g.functionRest
  return .function (.mk name.lexeme params body (← spanFrom keyword))

/-- A method: a function without its keyword. -/
def method : Descent FunctionDecl := do
  let name ← require .identifier "method name"
  let (params, body) ← g.functionRest
  return .mk name.lexeme params body (← spanFrom name)

/-- The superclass of the class `name`, if one is given. -/
def superclass (name : Token) : Descent (Option (String × Span)) := do
  if ← accept .less then
    let parent ← require .identifier "superclass name"
    reportIf (parent.lexeme == name.lexeme) .ownSuperclass parent
    return some (parent.lexeme, parent.span)
  else
    return none

/-- A class with its methods. -/
def classDeclaration (keyword : Token) : Descent Stmt := do
  let name ← require .identifier "class name"
  let parent ← superclass name
  let _ ← require .leftBrace "'\x7b' before class body"
  let stop : Descent Bool := do
    return (← check .rightBrace) || (← atEnd)
  let methods ← inClass parent.isSome (manyUntil g.turns stop (method g))
  let _ ← require .rightBrace "'\x7d' after class body"
  return .classDecl name.lexeme parent methods (← spanFrom keyword)

end Declarations

section Statements

/-- An expression for its effect. -/
def expressionStatement : Descent Stmt := do
  let e ← g.expression
  let _ ← require .semicolon "';' after expression"
  return .expression e (e.span.merge (← previous).span)

/-- The output of a value. -/
def printStatement (keyword : Token) : Descent Stmt := do
  let value ← g.expression
  let _ ← require .semicolon "';' after value"
  return .print value (← spanFrom keyword)

/-- A choice between two statements. -/
def ifStatement (keyword : Token) : Descent Stmt := do
  let _ ← require .leftParen "'(' after 'if'"
  let condition ← g.expression
  let _ ← require .rightParen "')' after if condition"
  let thenBranch ← g.statement
  let elseBranch ← if ← accept .elseKeyword then some <$> g.statement else pure none
  return .ifElse condition thenBranch elseBranch (← spanFrom keyword)

/-- The body of a loop. -/
def loopBody : Descent Stmt :=
  inLoop g.statement

/-- A loop that tests before its body. -/
def whileStatement (keyword : Token) : Descent Stmt := do
  let _ ← require .leftParen "'(' after 'while'"
  let condition ← g.expression
  let _ ← require .rightParen "')' after while condition"
  let body ← loopBody g
  return .whileLoop condition body (← spanFrom keyword)

/-- A loop that tests after its body. -/
def doWhileStatement (keyword : Token) : Descent Stmt := do
  let body ← loopBody g
  let _ ← require .whileKeyword "'while' after do body"
  let _ ← require .leftParen "'(' after 'while'"
  let condition ← g.expression
  let _ ← require .rightParen "')' after do-while condition"
  let _ ← require .semicolon "';' after do-while statement"
  return .doWhile body condition (← spanFrom keyword)

/-- The first clause of a `for` statement with its semicolon. -/
def forInitial : Descent (Option Stmt) := do
  if ← accept .semicolon then
    return none
  else if ← check .varKeyword then
    let keyword ← advance
    return some (← varDeclaration g keyword false)
  else
    return some (← expressionStatement g)

/-- An expression that may be missing before a token of this kind. -/
def optionalBefore (kind : TokenKind) : Descent (Option Expr) := do
  if ← check kind then return none else return some (← g.expression)

/-- A loop with a first clause, a condition and an increment. -/
def forStatement (keyword : Token) : Descent Stmt := do
  let _ ← require .leftParen "'(' after 'for'"
  let initial ← forInitial g
  let condition ← optionalBefore g .semicolon
  let _ ← require .semicolon "';' after loop condition"
  let increment ← optionalBefore g .rightParen
  let _ ← require .rightParen "')' after for clauses"
  let body ← loopBody g
  return .forLoop initial condition increment body (← spanFrom keyword)

/-- The end of a call. -/
def returnStatement (keyword : Token) : Descent Stmt := do
  reportIf ((← counters).functionDepth == 0) .returnOutsideFunction keyword
  let value ← optionalBefore g .semicolon
  let _ ← require .semicolon "';' after return value"
  return .returnValue value (← spanFrom keyword)

/-- The end of a loop. -/
def breakStatement (keyword : Token) : Descent Stmt := do
  reportIf ((← counters).loopDepth == 0) .breakOutsideLoop keyword
  let _ ← require .semicolon "';' after 'break'"
  return .breakLoop (← spanFrom keyword)

/-- The end of one iteration. -/
def continueStatement (keyword : Token) : Descent Stmt := do
  reportIf ((← counters).loopDepth == 0) .continueOutsideLoop keyword
  let _ ← require .semicolon "';' after 'continue'"
  return .continueLoop (← spanFrom keyword)

/-- The clause that receives a thrown value, if there is one. -/
def catchClause : Descent (Option CatchClause) := do
  if ← accept .catchKeyword then
    let _ ← require .leftParen "'(' after 'catch'"
    let name ← require .identifier "exception variable name"
    let _ ← require .rightParen "')' after exception variable"
    let _ ← require .leftBrace "'\x7b' after catch clause"
    return some (.mk name.lexeme (← g.block))
  else
    return none

/-- The clause that runs in any case, if there is one. -/
def finallyClause : Descent (Option (List Stmt)) := do
  if ← accept .finallyKeyword then
    let _ ← require .leftBrace "'\x7b' after 'finally'"
    return some (← g.block)
  else
    return none

/-- A block with a clause for thrown values, one that runs in any case, or both. -/
def tryStatement (keyword : Token) : Descent Stmt := do
  let _ ← require .leftBrace "'\x7b' after 'try'"
  let body ← g.block
  let handler ← catchClause g
  let cleanup ← finallyClause g
  if handler.isNone && cleanup.isNone then
    fail (.expectedToken "'catch' or 'finally'" none)
  else
    return .tryBlock body handler cleanup (← spanFrom keyword)

/-- The throwing of a value. -/
def throwStatement (keyword : Token) : Descent Stmt := do
  let value ← g.expression
  let _ ← require .semicolon "';' after thrown value"
  return .throwValue value (← spanFrom keyword)

/-- The listing of the visible bindings. -/
def dumpStatement (keyword : Token) : Descent Stmt := do
  let _ ← require .semicolon "';' after 'dump'"
  return .dump (← spanFrom keyword)

/-- A block of statements. -/
def blockStatement (start : Token) : Descent Stmt := do
  let statements ← g.block
  return .block statements (← spanFrom start)

/-- The reader of the statements that begin with a token of this kind. -/
def keywordStatement? : TokenKind → Option (Token → Descent Stmt)
  | .printKeyword => some (printStatement g)
  | .leftBrace => some (blockStatement g)
  | .ifKeyword => some (ifStatement g)
  | .whileKeyword => some (whileStatement g)
  | .doKeyword => some (doWhileStatement g)
  | .forKeyword => some (forStatement g)
  | .returnKeyword => some (returnStatement g)
  | .breakKeyword => some breakStatement
  | .continueKeyword => some continueStatement
  | .tryKeyword => some (tryStatement g)
  | .throwKeyword => some (throwStatement g)
  | .dumpKeyword => some dumpStatement
  | _ => none

/-- A statement. -/
def statement : Descent Stmt :=
  nested do
    match keywordStatement? g (← peek).kind with
    | some read => do
        let token ← advance
        read token
    | none => expressionStatement g

/-- A declaration or a statement, without recovery from an error. -/
def declarationBody : Descent Stmt := do
  match (← peek).kind with
  | .varKeyword => do
      let keyword ← advance
      varDeclaration g keyword false
  | .constKeyword => do
      let keyword ← advance
      varDeclaration g keyword true
  | .funKeyword => do
      if ← checkNext .identifier then
        let keyword ← advance
        functionDeclaration g keyword
      else
        statement g
  | .classKeyword => do
      let keyword ← advance
      classDeclaration g keyword
  | _ => statement g

/-- A declaration or a statement; after an error there is none, and the cursor is at the next
statement boundary. -/
def declaration : Descent (Option Stmt) :=
  recovering g.turns (declarationBody g)

end Statements

section Programs

/-- The readers that call each other at most `calls` deep and whose loops take at most `turns`
turns. -/
def Calls.upTo (turns : Nat) : Nat → Calls
  | 0 => ⟨turns, unfinished, unfinished, unfinished, unfinished, unfinished⟩
  | calls + 1 =>
      let g := Calls.upTo turns calls
      ⟨turns, Descent.assignment g, Descent.ternary g, Descent.unary g, Descent.statement g,
        Descent.declaration g⟩

/-- The readers with this bound on the turns and on the calls. -/
def Calls.within (bound : Nat) : Calls :=
  Calls.upTo bound bound

/-- The end of a program, of which this has been read: if an error was recorded, there is none. -/
def conclude (read : List (Option Stmt)) : Descent (List Stmt) :=
  fun _ s => if s.errors.isEmpty then .returned (read.filterMap id) s else .aborted s

/-- The statements of a program. -/
def program (bound : Nat) : Descent (List Stmt) := do
  let read ← manyUntil bound atEnd (Calls.within bound).declaration
  conclude read

end Programs

end Lox.Descent
