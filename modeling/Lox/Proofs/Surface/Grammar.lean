import Lox.Parse

/-!
# The surface grammar

The grammar of the language, as the reference states it, with the tree that belongs to every
phrase. It says which sequences of tokens are phrases and says nothing of how they are found.
Where the rules of the reference leave a choice between two trees, the rules here make it: binary
operators but the power group to the left, an `else` belongs to the nearest `if` that can have one,
and a name before the colon of a map entry is a text. The spans of the trees are those of the
tokens they are derived from; parentheses leave no trace.

The variables `w`, `us` and `vs` stand for the tokens of phrases.
-/

namespace Lox

/-- The span from a token to the last one of the phrase that it begins. -/
def Token.spanTo (first : Token) (w : List Token) : Span :=
  first.span.merge (w.getLastD first).span

/-- May an `else` that follows the statement still belong to it? -/
def Stmt.endsOpen : Stmt → Bool
  | .ifElse _ _ none _ => true
  | .ifElse _ _ (some elseBranch) _ => elseBranch.endsOpen
  | .whileLoop _ body _ => body.endsOpen
  | .forLoop _ _ _ body _ => body.endsOpen
  | _ => false

namespace Surface

/-- A token of a given kind. -/
abbrev Word (kind : TokenKind) := { token : Token // token.kind = kind }

section Repetition

variable {α : Type} (Phrase : List Token → α → Prop)

/-- A phrase or nothing. -/
inductive Optional : List Token → Option α → Prop
  | none : Optional [] none
  | some {w a} : Phrase w a → Optional w (some a)

/-- Phrases one after the other. -/
inductive Many : List Token → List α → Prop
  | nil : Many [] []
  | cons {us vs a as} : Phrase us a → Many vs as → Many (us ++ vs) (a :: as)

/-- One or more phrases, separated by commas. -/
inductive Separated : List Token → List α → Prop
  | one {w a} : Phrase w a → Separated w [a]
  | cons {us vs a as} (comma : Word .comma) :
      Phrase us a → Separated vs as → Separated (us ++ [comma.1] ++ vs) (a :: as)

/-- Phrases separated by commas, or none. -/
inductive Enumerated : List Token → List α → Prop
  | none : Enumerated [] []
  | some {w as} : Separated Phrase w as → Enumerated w as

/-- Phrases separated by commas, or none; a comma may follow the last one. -/
inductive Listed : List Token → List α → Prop
  | none : Listed [] []
  | some {w as} : Separated Phrase w as → Listed w as
  | comma {w as} (comma : Word .comma) : Separated Phrase w as → Listed (w ++ [comma.1]) as

variable {Phrase}

/-- One more phrase and a comma before those that are listed. -/
theorem Listed.cons
    {us vs : List Token}
    {a : α}
    {as : List α}
    (ha : Phrase us a)
    (comma : Word .comma)
    (h : Listed Phrase vs as) :
    Listed Phrase (us ++ [comma.1] ++ vs) (a :: as) := by
  cases h with
  | none => simpa using Listed.comma comma (.one ha)
  | some h => exact .some (.cons comma ha h)
  | comma last h => simpa using Listed.comma last (.cons comma ha h)

end Repetition

section Levels

/-- The levels of precedence, those that bind loosest first. -/
inductive Level
  | assignment | ternary | disjunction | conjunction | equality | comparison | term | factor
  | unary | power | call | primary
deriving DecidableEq

namespace Level

/-- The level whose expressions bind tighter than those of a level. -/
def tighter? : Level → Option Level
  | assignment => some ternary
  | ternary => some disjunction
  | disjunction => some conjunction
  | conjunction => some equality
  | equality => some comparison
  | comparison => some term
  | term => some factor
  | factor => some unary
  | unary => some power
  | power => some call
  | call => some primary
  | primary => none

/-- The operators that join expressions of a level from left to right. -/
def operators : Level → List (TokenKind × Parse.Join)
  | disjunction => [(.orKeyword, Parse.joinLogical .or)]
  | conjunction => [(.andKeyword, Parse.joinLogical .and)]
  | equality =>
      [(.notEqual, Parse.joinBinary .notEqual), (.equal, Parse.joinBinary .equal)]
  | comparison =>
      [(.greater, Parse.joinBinary .greater), (.greaterEqual, Parse.joinBinary .greaterEqual),
        (.less, Parse.joinBinary .less), (.lessEqual, Parse.joinBinary .lessEqual)]
  | term => [(.minus, Parse.joinBinary .subtract), (.plus, Parse.joinBinary .add)]
  | factor =>
      [(.slash, Parse.joinBinary .divide), (.star, Parse.joinBinary .multiply),
        (.percent, Parse.joinBinary .remainder)]
  | assignment | ternary | unary | power | call | primary => []

end Level

/-- The operators before an operand. -/
def unaryOperators : List (TokenKind × UnaryOp) :=
  [(.bang, .not), (.minus, .negate)]

end Levels

section Words

/-- The value that a token stands for by itself. -/
def literal? (token : Token) : Option Literal :=
  match token.kind with
  | .trueKeyword => some (.boolean true)
  | .falseKeyword => some (.boolean false)
  | .nilKeyword => some .nil
  | .number | .string => token.literal
  | _ => none

/-- Names. -/
inductive Name : List Token → String → Prop
  | mk (name : Word .identifier) : Name [name.1] name.1.lexeme

/-- The superclass of a class, with its place. -/
inductive Superclass : List Token → String × Span → Prop
  | mk (less : Word .less) (name : Word .identifier) :
      Superclass [less.1, name.1] (name.1.lexeme, name.1.span)

end Words

mutual

/-- Expressions of a level. -/
inductive Expression : Level → List Token → Expr → Prop
  | tighter {level tighter w e} :
      level.tighter? = some tighter → Expression tighter w e → Expression level w e
  | assign {w us vs target value e} (equals : Word .assign) :
      w = us ++ [equals.1] ++ vs →
      Target us target →
      Expression .assignment vs value →
      Parse.assignmentTo? target value (target.span.merge value.span) = some e →
      Expression .assignment w e
  | conditional {w us vs ws c t e} (question : Word .question) (colon : Word .colon) :
      w = us ++ [question.1] ++ vs ++ [colon.1] ++ ws →
      Expression .disjunction us c →
      Expression .assignment vs t →
      Expression .ternary ws e →
      Expression .ternary w (.conditional c t e (c.span.merge e.span))
  | joined {level tighter w us vs left right join} (op : Token) :
      level.tighter? = some tighter →
      (op.kind, join) ∈ level.operators →
      w = us ++ [op] ++ vs →
      Expression level us left →
      Expression tighter vs right →
      Expression level w (join left right (left.span.merge right.span))
  | unary {w us operand op} (sign : Token) :
      (sign.kind, op) ∈ unaryOperators →
      w = [sign] ++ us →
      Expression .unary us operand →
      Expression .unary w (.unary op operand (sign.span.merge operand.span))
  | power {w us vs base exponent} (op : Word .power) :
      w = us ++ [op.1] ++ vs →
      Expression .call us base →
      Expression .unary vs exponent →
      Expression .power w (.binary base .power exponent (base.span.merge exponent.span))
  | call {w us vs callee arguments} (opening : Word .leftParen) (closing : Word .rightParen) :
      w = us ++ [opening.1] ++ vs ++ [closing.1] →
      Expression .call us callee →
      Enumerated (Expression .assignment) vs arguments →
      Expression .call w (.call callee arguments (callee.span.merge closing.1.span))
  | property {w us object} (dot : Word .dot) (name : Word .identifier) :
      w = us ++ [dot.1, name.1] →
      Expression .call us object →
      Expression .call w (.get object name.1.lexeme (object.span.merge name.1.span))
  | element {w us vs object index} (opening : Word .leftBracket) (closing : Word .rightBracket) :
      w = us ++ [opening.1] ++ vs ++ [closing.1] →
      Expression .call us object →
      Expression .assignment vs index →
      Expression .call w (.index object index (object.span.merge closing.1.span))
  | literal {value} (token : Token) :
      literal? token = some value → Expression .primary [token] (.literal value token.span)
  | name (name : Word .identifier) :
      Expression .primary [name.1] (.reference name.1.lexeme name.1.span)
  | this (keyword : Word .thisKeyword) : Expression .primary [keyword.1] (.this keyword.1.span)
  | super {w} (keyword : Word .superKeyword) (dot : Word .dot) (name : Word .identifier) :
      w = [keyword.1, dot.1, name.1] →
      Expression .primary w (.super name.1.lexeme (keyword.1.spanTo w))
  | group {w us e} (opening : Word .leftParen) (closing : Word .rightParen) :
      w = [opening.1] ++ us ++ [closing.1] →
      Expression .assignment us e →
      Expression .primary w e
  | list {w us elements} (opening : Word .leftBracket) (closing : Word .rightBracket) :
      w = [opening.1] ++ us ++ [closing.1] →
      Listed (Expression .assignment) us elements →
      Expression .primary w (.list elements (opening.1.spanTo w))
  | map {w us entries} (opening : Word .leftBrace) (closing : Word .rightBrace) :
      w = [opening.1] ++ us ++ [closing.1] →
      Listed Entry us entries →
      Expression .primary w (.map entries (opening.1.spanTo w))
  | function {w us params body} (keyword : Word .funKeyword) :
      w = [keyword.1] ++ us →
      FunctionRest us (params, body) →
      Expression .primary w (.function params body (keyword.1.spanTo w))
  | arrow {w us vs params body}
      (opening : Word .leftParen)
      (closing : Word .rightParen)
      (arrow : Word .arrow) :
      w = [opening.1] ++ us ++ [closing.1, arrow.1] ++ vs →
      Enumerated Name us params →
      ArrowBody vs body →
      Expression .primary w (.function params body (opening.1.spanTo w))

/-- What a value can be assigned to: a variable, a property or an element, perhaps in
parentheses. -/
inductive Target : List Token → Expr → Prop
  | name (name : Word .identifier) : Target [name.1] (.reference name.1.lexeme name.1.span)
  | property {w us object} (dot : Word .dot) (name : Word .identifier) :
      w = us ++ [dot.1, name.1] →
      Expression .call us object →
      Target w (.get object name.1.lexeme (object.span.merge name.1.span))
  | element {w us vs object index} (opening : Word .leftBracket) (closing : Word .rightBracket) :
      w = us ++ [opening.1] ++ vs ++ [closing.1] →
      Expression .call us object →
      Expression .assignment vs index →
      Target w (.index object index (object.span.merge closing.1.span))
  | group {w us target} (opening : Word .leftParen) (closing : Word .rightParen) :
      w = [opening.1] ++ us ++ [closing.1] → Target us target → Target w target

/-- The entries of a map literal. A key that is just a name stands for itself. -/
inductive Entry : List Token → MapEntry → Prop
  | name {w us value} (key : Word .identifier) (colon : Word .colon) :
      w = [key.1, colon.1] ++ us →
      Expression .assignment us value →
      Entry w (.mk (.literal (.string key.1.lexeme) key.1.span) value)
  | key {w us vs key value} (colon : Word .colon) :
      w = us ++ [colon.1] ++ vs →
      Expression .assignment us key →
      (∀ name : Word .identifier, us ≠ [name.1]) →
      Expression .assignment vs value →
      Entry w (.mk key value)

/-- The bodies of arrow functions: a block, or an expression whose value is returned. -/
inductive ArrowBody : List Token → List Stmt → Prop
  | block {w body} : Block w body → ArrowBody w body
  | expression {w value} :
      Expression .assignment w value → ArrowBody w [.returnValue (some value) value.span]

/-- Parameters in parentheses and a body. -/
inductive FunctionRest : List Token → List String × List Stmt → Prop
  | mk {w us vs params body} (opening : Word .leftParen) (closing : Word .rightParen) :
      w = [opening.1] ++ us ++ [closing.1] ++ vs →
      Enumerated Name us params →
      Block vs body →
      FunctionRest w (params, body)

/-- Declarations in braces. -/
inductive Block : List Token → List Stmt → Prop
  | mk {w us body} (opening : Word .leftBrace) (closing : Word .rightBrace) :
      w = [opening.1] ++ us ++ [closing.1] → Many Declaration us body → Block w body

/-- Expressions as statements. -/
inductive ExpressionStatement : List Token → Stmt → Prop
  | mk {w us e} (semicolon : Word .semicolon) :
      w = us ++ [semicolon.1] →
      Expression .assignment us e →
      ExpressionStatement w (.expression e (e.span.merge semicolon.1.span))

/-- The first clause of a `for` statement with its semicolon. -/
inductive ForInitial : List Token → Option Stmt → Prop
  | none (semicolon : Word .semicolon) : ForInitial [semicolon.1] none
  | var {w stmt} : VarDeclaration w stmt → ForInitial w (some stmt)
  | expression {w stmt} : ExpressionStatement w stmt → ForInitial w (some stmt)

/-- The clause of a `try` statement that receives a thrown value. -/
inductive Catch : List Token → CatchClause → Prop
  | mk {w us body}
      (keyword : Word .catchKeyword)
      (opening : Word .leftParen)
      (name : Word .identifier)
      (closing : Word .rightParen) :
      w = [keyword.1, opening.1, name.1, closing.1] ++ us →
      Block us body →
      Catch w (.mk name.1.lexeme body)

/-- The clause of a `try` statement that runs in any case. -/
inductive Finally : List Token → List Stmt → Prop
  | mk {w us body} (keyword : Word .finallyKeyword) :
      w = [keyword.1] ++ us → Block us body → Finally w body

/-- Statements. An `else` follows a statement only if it cannot belong to that statement. -/
inductive Statement : List Token → Stmt → Prop
  | expression {w stmt} : ExpressionStatement w stmt → Statement w stmt
  | print {w us value} (keyword : Word .printKeyword) (semicolon : Word .semicolon) :
      w = [keyword.1] ++ us ++ [semicolon.1] →
      Expression .assignment us value →
      Statement w (.print value (keyword.1.spanTo w))
  | block {w us body} (opening : Word .leftBrace) :
      w = [opening.1] ++ us → Block w body → Statement w (.block body (opening.1.spanTo w))
  | ifThen {w us vs c t}
      (keyword : Word .ifKeyword)
      (opening : Word .leftParen)
      (closing : Word .rightParen) :
      w = [keyword.1, opening.1] ++ us ++ [closing.1] ++ vs →
      Expression .assignment us c →
      Statement vs t →
      Statement w (.ifElse c t none (keyword.1.spanTo w))
  | ifElse {w us vs ws c t e}
      (keyword : Word .ifKeyword)
      (opening : Word .leftParen)
      (closing : Word .rightParen)
      (otherwise : Word .elseKeyword) :
      w = [keyword.1, opening.1] ++ us ++ [closing.1] ++ vs ++ [otherwise.1] ++ ws →
      Expression .assignment us c →
      Statement vs t →
      t.endsOpen = false →
      Statement ws e →
      Statement w (.ifElse c t (some e) (keyword.1.spanTo w))
  | whileLoop {w us vs c body}
      (keyword : Word .whileKeyword)
      (opening : Word .leftParen)
      (closing : Word .rightParen) :
      w = [keyword.1, opening.1] ++ us ++ [closing.1] ++ vs →
      Expression .assignment us c →
      Statement vs body →
      Statement w (.whileLoop c body (keyword.1.spanTo w))
  | doWhile {w us vs c body}
      (keyword : Word .doKeyword)
      (whileWord : Word .whileKeyword)
      (opening : Word .leftParen)
      (closing : Word .rightParen)
      (semicolon : Word .semicolon) :
      w = [keyword.1] ++ us ++ [whileWord.1, opening.1] ++ vs ++ [closing.1, semicolon.1] →
      Statement us body →
      Expression .assignment vs c →
      Statement w (.doWhile body c (keyword.1.spanTo w))
  | forLoop {w us vs ws xs initial c increment body}
      (keyword : Word .forKeyword)
      (opening : Word .leftParen)
      (semicolon : Word .semicolon)
      (closing : Word .rightParen) :
      w = [keyword.1, opening.1] ++ us ++ vs ++ [semicolon.1] ++ ws ++ [closing.1] ++ xs →
      ForInitial us initial →
      Optional (Expression .assignment) vs c →
      Optional (Expression .assignment) ws increment →
      Statement xs body →
      Statement w (.forLoop initial c increment body (keyword.1.spanTo w))
  | breakLoop {w} (keyword : Word .breakKeyword) (semicolon : Word .semicolon) :
      w = [keyword.1, semicolon.1] → Statement w (.breakLoop (keyword.1.spanTo w))
  | continueLoop {w} (keyword : Word .continueKeyword) (semicolon : Word .semicolon) :
      w = [keyword.1, semicolon.1] → Statement w (.continueLoop (keyword.1.spanTo w))
  | returnValue {w us value} (keyword : Word .returnKeyword) (semicolon : Word .semicolon) :
      w = [keyword.1] ++ us ++ [semicolon.1] →
      Optional (Expression .assignment) us value →
      Statement w (.returnValue value (keyword.1.spanTo w))
  | tryBlock {w us vs ws body handler cleanup} (keyword : Word .tryKeyword) :
      w = [keyword.1] ++ us ++ vs ++ ws →
      Block us body →
      Optional Catch vs handler →
      Optional Finally ws cleanup →
      handler.isSome ∨ cleanup.isSome →
      Statement w (.tryBlock body handler cleanup (keyword.1.spanTo w))
  | throwValue {w us value} (keyword : Word .throwKeyword) (semicolon : Word .semicolon) :
      w = [keyword.1] ++ us ++ [semicolon.1] →
      Expression .assignment us value →
      Statement w (.throwValue value (keyword.1.spanTo w))
  | dump {w} (keyword : Word .dumpKeyword) (semicolon : Word .semicolon) :
      w = [keyword.1, semicolon.1] → Statement w (.dump (keyword.1.spanTo w))

/-- Variables. -/
inductive VarDeclaration : List Token → Stmt → Prop
  | bare {w} (keyword : Word .varKeyword) (name : Word .identifier) (semicolon : Word .semicolon) :
      w = [keyword.1, name.1, semicolon.1] →
      VarDeclaration w (.declare name.1.lexeme none false (keyword.1.spanTo w))
  | initialized {w us e}
      (keyword : Word .varKeyword)
      (name : Word .identifier)
      (equals : Word .assign)
      (semicolon : Word .semicolon) :
      w = [keyword.1, name.1, equals.1] ++ us ++ [semicolon.1] →
      Expression .assignment us e →
      VarDeclaration w (.declare name.1.lexeme (some e) false (keyword.1.spanTo w))

/-- The methods of a class. -/
inductive Method : List Token → FunctionDecl → Prop
  | mk {w us params body} (name : Word .identifier) :
      w = [name.1] ++ us →
      FunctionRest us (params, body) →
      Method w (.mk name.1.lexeme params body (name.1.spanTo w))

/-- Declarations and statements. -/
inductive Declaration : List Token → Stmt → Prop
  | statement {w stmt} : Statement w stmt → Declaration w stmt
  | var {w stmt} : VarDeclaration w stmt → Declaration w stmt
  | const {w us e}
      (keyword : Word .constKeyword)
      (name : Word .identifier)
      (equals : Word .assign)
      (semicolon : Word .semicolon) :
      w = [keyword.1, name.1, equals.1] ++ us ++ [semicolon.1] →
      Expression .assignment us e →
      Declaration w (.declare name.1.lexeme (some e) true (keyword.1.spanTo w))
  | function {w us params body} (keyword : Word .funKeyword) (name : Word .identifier) :
      w = [keyword.1, name.1] ++ us →
      FunctionRest us (params, body) →
      Declaration w (.function (.mk name.1.lexeme params body (keyword.1.spanTo w)))
  | classDecl {w us vs parent methods}
      (keyword : Word .classKeyword)
      (name : Word .identifier)
      (opening : Word .leftBrace)
      (closing : Word .rightBrace) :
      w = [keyword.1, name.1] ++ us ++ [opening.1] ++ vs ++ [closing.1] →
      Optional Superclass us parent →
      Many Method vs methods →
      Declaration w (.classDecl name.1.lexeme parent methods (keyword.1.spanTo w))

end

/-- Programs: declarations up to the end of the input. -/
inductive Derives : List Token → Program → Prop
  | mk {w statements} (final : Word .endOfInput) :
      Many Declaration w statements → Derives (w ++ [final.1]) ⟨statements⟩

end Surface

end Lox
