import Lox.Token

/-!
# Syntax trees

The expressions, statements and programs of the language. Every node but an empty program has the
span of the text it was read from.
-/

namespace Lox

/-- The operators that take two values. -/
inductive BinaryOp
  | add | subtract | multiply | divide | remainder | power
  | equal | notEqual | greater | greaterEqual | less | lessEqual
deriving DecidableEq

/-- The spelling of an operator. -/
def BinaryOp.text : BinaryOp → String
  | add => "+"
  | subtract => "-"
  | multiply => "*"
  | divide => "/"
  | remainder => "%"
  | power => "**"
  | equal => "=="
  | notEqual => "!="
  | greater => ">"
  | greaterEqual => ">="
  | less => "<"
  | lessEqual => "<="

/-- The operators that take one value. -/
inductive UnaryOp
  | negate | not
deriving DecidableEq

/-- The spelling of an operator. -/
def UnaryOp.text : UnaryOp → String
  | negate => "-"
  | not => "!"

/-- The operators whose right operand is evaluated only when it decides. -/
inductive LogicalOp
  | and | or
deriving DecidableEq

/-- The spelling of an operator. -/
def LogicalOp.text : LogicalOp → String
  | and => "and"
  | or => "or"

mutual

/-- Expressions. -/
inductive Expr
  | literal (value : Literal) (span : Span)
  | reference (name : String) (span : Span)
  | assign (name : String) (value : Expr) (span : Span)
  | binary (left : Expr) (op : BinaryOp) (right : Expr) (span : Span)
  | unary (op : UnaryOp) (operand : Expr) (span : Span)
  | logical (left : Expr) (op : LogicalOp) (right : Expr) (span : Span)
  | conditional (condition thenBranch elseBranch : Expr) (span : Span)
  | call (callee : Expr) (arguments : List Expr) (span : Span)
  | get (object : Expr) (name : String) (span : Span)
  | set (object : Expr) (name : String) (value : Expr) (span : Span)
  | this (span : Span)
  | super (method : String) (span : Span)
  | list (elements : List Expr) (span : Span)
  | map (entries : List MapEntry) (span : Span)
  | index (object index : Expr) (span : Span)
  | indexSet (object index value : Expr) (span : Span)
  | function (params : List String) (body : List Stmt) (span : Span)

/-- An entry of a map literal. -/
inductive MapEntry
  | mk (key value : Expr)

/-- Statements. -/
inductive Stmt
  | expression (expression : Expr) (span : Span)
  | print (expression : Expr) (span : Span)
  | declare (name : String) (initial : Option Expr) (isConst : Bool) (span : Span)
  | block (statements : List Stmt) (span : Span)
  | ifElse (condition : Expr) (thenBranch : Stmt) (elseBranch : Option Stmt) (span : Span)
  | whileLoop (condition : Expr) (body : Stmt) (span : Span)
  | doWhile (body : Stmt) (condition : Expr) (span : Span)
  | forLoop
      (initial : Option Stmt)
      (condition : Option Expr)
      (increment : Option Expr)
      (body : Stmt)
      (span : Span)
  | breakLoop (span : Span)
  | continueLoop (span : Span)
  | function (declaration : FunctionDecl)
  | returnValue (value : Option Expr) (span : Span)
  | classDecl
      (name : String)
      (superclass : Option (String × Span))
      (methods : List FunctionDecl)
      (span : Span)
  | tryBlock
      (body : List Stmt)
      (handler : Option CatchClause)
      (cleanup : Option (List Stmt))
      (span : Span)
  | throwValue (value : Expr) (span : Span)
  | dump (span : Span)

/-- The clause of a `try` statement that receives a thrown value. -/
inductive CatchClause
  | mk (name : String) (body : List Stmt)

/-- A named function or a method. -/
inductive FunctionDecl
  | mk (name : String) (params : List String) (body : List Stmt) (span : Span)

end

/-- The span of an expression. -/
def Expr.span : Expr → Span
  | literal _ span | reference _ span | assign _ _ span | binary _ _ _ span | unary _ _ span
  | logical _ _ _ span | conditional _ _ _ span | call _ _ span | get _ _ span | set _ _ _ span
  | this span | super _ span | list _ span | map _ span | index _ _ span | indexSet _ _ _ span
  | function _ _ span => span

namespace FunctionDecl

/-- The name of a declared function. -/
def name : FunctionDecl → String
  | mk name _ _ _ => name

/-- The parameters of a declared function. -/
def params : FunctionDecl → List String
  | mk _ params _ _ => params

/-- The body of a declared function. -/
def body : FunctionDecl → List Stmt
  | mk _ _ body _ => body

/-- The span of a declared function. -/
def span : FunctionDecl → Span
  | mk _ _ _ span => span

end FunctionDecl

/-- The span of a statement. -/
def Stmt.span : Stmt → Span
  | expression _ span | print _ span | declare _ _ _ span | block _ span | ifElse _ _ _ span
  | whileLoop _ _ span | doWhile _ _ span | forLoop _ _ _ _ span | breakLoop span
  | continueLoop span | returnValue _ span | classDecl _ _ _ span | tryBlock _ _ _ span
  | throwValue _ span | dump span => span
  | function declaration => declaration.span

/-- A program: its statements. -/
structure Program where
  statements : List Stmt

/-- The span from the first statement to the last; a program without statements has none. -/
def Program.span? (program : Program) : Option Span :=
  match program.statements.head?, program.statements.getLast? with
  | some first, some last => some (first.span.merge last.span)
  | _, _ => none

end Lox
