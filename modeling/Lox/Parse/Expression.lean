import Lox.Parse.Basic

/-!
# Reading expressions

One reader per level of precedence. A construct that contains another expression or statement reads
it through a `Grammar`, the readers of one level of nesting further in, so no reader here is
recursive.
-/

namespace Lox.Parse

/-- The readers that nested constructs are read with. -/
structure Grammar where
  assignment : Parse Expr
  ternary : Parse Expr
  unary : Parse Expr
  statement : Parse Stmt
  declaration : Parse (Option Stmt)

namespace Grammar

/-- A whole expression inside another construct. -/
def expression (g : Grammar) : Parse Expr :=
  nested g.assignment

/-- The statements up to a closing brace, which is read; the opening brace has been read. -/
def block (g : Grammar) : Parse (List Stmt) := do
  let stop : Parse Bool := do
    return (← check .rightBrace) || (← atEnd)
  let statements ← manyUntil stop g.declaration (← budget) []
  let _ ← require .rightBrace "'\x7d' after block"
  return statements.filterMap id

/-- The body of a function after its opening brace. -/
def functionBody (g : Grammar) : Parse (List Stmt) :=
  within Context.enterFunction (nested g.block)

/-- Parameters in parentheses and a body in braces. -/
def functionRest (g : Grammar) : Parse (List String × List Stmt) := do
  let _ ← require .leftParen "'(' before parameters"
  let params ← parameters
  let _ ← require .rightParen "')' after parameters"
  let _ ← require .leftBrace "'\x7b' before function body"
  return (params, ← g.functionBody)

end Grammar

variable (g : Grammar)

section Primary

/-- Do the tokens after an opening parenthesis make it the beginning of an arrow function? They are
names separated by commas, a closing parenthesis and an arrow. -/
def startsArrow (expectsName : Bool) : List Token → Bool
  | [] => false
  | token :: rest =>
      if token.kind = .rightParen then
        (rest.head?.map (·.kind)) == some .arrow
      else if expectsName then
        token.kind == .identifier && startsArrow false rest
      else
        token.kind == .comma && startsArrow true rest

/-- An arrow function: parameters, an arrow, and a block or an expression, whose value is
returned. -/
def arrowFunction : Parse Expr := do
  let start ← advance
  let params ← parameters
  let _ ← require .rightParen "')' after parameters"
  let _ ← require .arrow "'=>' after parameters"
  let body ←
    if ← accept .leftBrace then
      g.functionBody
    else do
      let value ← nestedArrow g.assignment
      pure [Stmt.returnValue (some value) value.span]
  return .function params body (← spanFrom start)

/-- A method of the superclass, after `super`. -/
def superExpression (keyword : Token) : Parse Expr := do
  match (← context).classHasSuperclass with
  | none => report ⟨.misplaced .superOutsideClass, keyword⟩
  | some false => report ⟨.misplaced .superWithoutSuperclass, keyword⟩
  | some true => pure ()
  let _ ← require .dot "'.' after 'super'"
  let method ← require .identifier "superclass method name"
  return .super method.lexeme (← spanFrom keyword)

/-- A key of a map literal: a name before a colon stands for itself. -/
def mapKey : Parse Expr := do
  if (← check .identifier) && (← checkNext .colon) then
    let token ← advance
    return .literal (.string token.lexeme) token.span
  else
    g.expression

/-- An entry of a map literal. -/
def mapEntry : Parse MapEntry := do
  let key ← mapKey g
  let _ ← require .colon "':' after map key"
  return .mk key (← g.expression)

/-- A list literal after its opening bracket. -/
def listLiteral (start : Token) : Parse Expr := do
  let elements ← listBefore .rightBracket g.expression (← budget) []
  let _ ← require .rightBracket "']' after list elements"
  return .list elements (← spanFrom start)

/-- A map literal after its opening brace. -/
def mapLiteral (start : Token) : Parse Expr := do
  let entries ← listBefore .rightBrace (mapEntry g) (← budget) []
  let _ ← require .rightBrace "'\x7d' after map entries"
  return .map entries (← spanFrom start)

/-- What follows an opening parenthesis that begins no arrow function. -/
def grouping : Parse Expr := do
  let _ ← advance
  let e ← g.expression
  let _ ← require .rightParen "')' after expression"
  return e

/-- A literal, a name, or an expression in brackets of its own. -/
def primary : Parse Expr := do
  let token ← peek
  match token.kind with
  | .trueKeyword => do
      let _ ← advance
      return .literal (.boolean true) token.span
  | .falseKeyword => do
      let _ ← advance
      return .literal (.boolean false) token.span
  | .nilKeyword => do
      let _ ← advance
      return .literal .nil token.span
  | .number | .string => do
      let _ ← advance
      return .literal (token.literal.getD .nil) token.span
  | .thisKeyword => do
      let _ ← advance
      reportIf (← context).classHasSuperclass.isNone .thisOutsideClass token
      return .this token.span
  | .superKeyword => do
      let _ ← advance
      superExpression token
  | .identifier => do
      let _ ← advance
      return .reference token.lexeme token.span
  | .funKeyword => do
      let _ ← advance
      let (params, body) ← g.functionRest
      return .function params body (← spanFrom token)
  | .leftParen => do
      if startsArrow true ((← remaining).drop 1) then arrowFunction g else grouping g
  | .leftBracket => do
      let _ ← advance
      listLiteral g token
  | .leftBrace => do
      let _ ← advance
      mapLiteral g token
  | _ => fail .expectedExpression

end Primary

section Operators

/-- The calls, property names and indices after an expression. The list of tokens bounds the
repetitions. -/
def suffixes : List Token → Expr → Parse Expr
  | [], e => pure e
  | _ :: left, e => do
      match (← peek).kind with
      | .leftParen => do
          let _ ← advance
          let arguments ← parenthesised .arguments g.expression
          let paren ← require .rightParen "')' after arguments"
          suffixes left (.call e arguments (e.span.merge paren.span))
      | .dot => do
          let _ ← advance
          let name ← require .identifier "property name after '.'"
          suffixes left (.get e name.lexeme (e.span.merge name.span))
      | .leftBracket => do
          let _ ← advance
          let index ← g.expression
          let bracket ← require .rightBracket "']' after index"
          suffixes left (.index e index (e.span.merge bracket.span))
      | _ => return e

/-- A primary expression with its calls, property names and indices. -/
def call : Parse Expr := do
  let e ← primary g
  suffixes g (← budget) e

/-- A power; its exponent may be a power or a signed operand. -/
def power : Parse Expr := do
  let base ← call g
  if ← accept .power then
    let exponent ← nested g.unary
    return .binary base .power exponent (base.span.merge exponent.span)
  else
    return base

/-- The operator that a token of this kind stands for before an operand. -/
def unaryOp? : TokenKind → Option UnaryOp
  | .bang => some .not
  | .minus => some .negate
  | _ => none

/-- A power, perhaps behind signs. -/
def unary : Parse Expr := do
  match unaryOp? (← peek).kind with
  | some op => do
      let token ← advance
      let operand ← nested g.unary
      return .unary op operand (token.span.merge operand.span)
  | none => power g

/-- What joins two operands to an expression. -/
abbrev Join := Expr → Expr → Span → Expr

/-- Operands joined from left to right as long as an operator of the level follows. The list of
tokens bounds the repetitions. -/
def chain
    (operand : Parse Expr)
    (join? : TokenKind → Option Join) :
    List Token → Expr → Parse Expr
  | [], left => pure left
  | _ :: rest, left => do
      match join? (← peek).kind with
      | some join => do
          let _ ← advance
          let right ← operand
          chain operand join? rest (join left right (left.span.merge right.span))
      | none => return left

/-- A level of operators that group from the left. -/
def leftAssociative (operand : Parse Expr) (join? : TokenKind → Option Join) : Parse Expr := do
  let first ← operand
  chain operand join? (← budget) first

/-- Joining by a binary operator. -/
def joinBinary (op : BinaryOp) : Join :=
  fun left right span => .binary left op right span

/-- Joining by a logical operator. -/
def joinLogical (op : LogicalOp) : Join :=
  fun left right span => .logical left op right span

/-- Multiplication, division and remainder. -/
def factorOp? : TokenKind → Option Join
  | .slash => some (joinBinary .divide)
  | .star => some (joinBinary .multiply)
  | .percent => some (joinBinary .remainder)
  | _ => none

/-- Addition and subtraction. -/
def termOp? : TokenKind → Option Join
  | .minus => some (joinBinary .subtract)
  | .plus => some (joinBinary .add)
  | _ => none

/-- Comparisons by order. -/
def comparisonOp? : TokenKind → Option Join
  | .greater => some (joinBinary .greater)
  | .greaterEqual => some (joinBinary .greaterEqual)
  | .less => some (joinBinary .less)
  | .lessEqual => some (joinBinary .lessEqual)
  | _ => none

/-- Comparisons for equality. -/
def equalityOp? : TokenKind → Option Join
  | .notEqual => some (joinBinary .notEqual)
  | .equal => some (joinBinary .equal)
  | _ => none

/-- Conjunction. -/
def andOp? : TokenKind → Option Join
  | .andKeyword => some (joinLogical .and)
  | _ => none

/-- Disjunction. -/
def orOp? : TokenKind → Option Join
  | .orKeyword => some (joinLogical .or)
  | _ => none

/-- Products. -/
def factor : Parse Expr := leftAssociative (unary g) factorOp?

/-- Sums. -/
def term : Parse Expr := leftAssociative (factor g) termOp?

/-- Comparisons by order. -/
def comparison : Parse Expr := leftAssociative (term g) comparisonOp?

/-- Comparisons for equality. -/
def equality : Parse Expr := leftAssociative (comparison g) equalityOp?

/-- Conjunctions. -/
def logicalAnd : Parse Expr := leftAssociative (equality g) andOp?

/-- Disjunctions. -/
def logicalOr : Parse Expr := leftAssociative (logicalAnd g) orOp?

/-- A condition with two branches, or no condition at all. -/
def ternary : Parse Expr := do
  let condition ← logicalOr g
  if ← accept .question then
    let thenBranch ← g.expression
    let _ ← require .colon "':' in conditional expression"
    let elseBranch ← nested g.ternary
    return .conditional condition thenBranch elseBranch (condition.span.merge elseBranch.span)
  else
    return condition

/-- The assignment of a value to a target, if the expression is one. -/
def assignmentTo? (target value : Expr) (span : Span) : Option Expr :=
  match target with
  | .reference name _ => some (.assign name value span)
  | .get object name _ => some (.set object name value span)
  | .index object index _ => some (.indexSet object index value span)
  | _ => none

/-- An assignment, or an expression without one. An invalid target is an error, but both sides have
been read, so reading goes on behind them. -/
def assignment : Parse Expr := do
  let target ← ternary g
  if ← check .assign then
    let equals ← advance
    let value ← nested g.assignment
    match assignmentTo? target value (target.span.merge value.span) with
    | some e => return e
    | none =>
        report ⟨.invalidTarget target.span, equals⟩
        return target
  else
    return target

end Operators

end Lox.Parse
