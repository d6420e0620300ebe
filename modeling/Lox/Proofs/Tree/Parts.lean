import Lox.Tree

/-!
# The parts of expressions and statements

Which expressions and statements are evaluated and executed as parts of another one, sorted by
where that happens: in the same scope, in a scope made for the purpose, or in the scope of one
iteration of a loop. The body of a function is no part of the expression or statement that makes
the function.
-/

namespace Lox

namespace MapEntry

/-- The key and the value of an entry. -/
def parts : MapEntry → List Expr
  | mk key value => [key, value]

end MapEntry

namespace CatchClause

/-- The name that a thrown value is bound to. -/
def name : CatchClause → String
  | mk name _ => name

/-- The statements of the clause. -/
def body : CatchClause → List Stmt
  | mk _ body => body

end CatchClause

namespace Expr

/-- The expressions directly inside an expression. -/
def parts : Expr → List Expr
  | literal _ _ | reference _ _ | this _ | super _ _ | function _ _ _ => []
  | assign _ value _ => [value]
  | binary left _ right _ => [left, right]
  | unary _ operand _ => [operand]
  | logical left _ right _ => [left, right]
  | conditional condition thenBranch elseBranch _ => [condition, thenBranch, elseBranch]
  | call callee arguments _ => callee :: arguments
  | get object _ _ => [object]
  | set object _ value _ => [object, value]
  | list elements _ => elements
  | map entries _ => entries.flatMap MapEntry.parts
  | .index object key _ => [object, key]
  | indexSet object key value _ => [object, key, value]

end Expr

namespace Stmt

/-- The expressions directly inside a statement. -/
def expressions : Stmt → List Expr
  | expression e _ | print e _ | throwValue e _ => [e]
  | declare _ initial _ _ => initial.toList
  | returnValue value _ => value.toList
  | ifElse condition _ _ _ | whileLoop condition _ _ | doWhile _ condition _ => [condition]
  | forLoop _ condition increment _ _ => condition.toList ++ increment.toList
  | classDecl _ superclass _ _ => superclass.toList.map fun parent => .reference parent.1 parent.2
  | block _ _ | breakLoop _ | continueLoop _ | function _ | tryBlock _ _ _ _ | dump _ => []

/-- The statements that are executed in the scope of the statement itself. -/
def branches : Stmt → List Stmt
  | ifElse _ thenBranch elseBranch _ => thenBranch :: elseBranch.toList
  | _ => []

/-- The statements that are executed in a scope made for them. -/
def inner : Stmt → List Stmt
  | block statements _ => statements
  | forLoop initial _ _ _ _ => initial.toList
  | tryBlock body handler cleanup _ =>
      body ++ handler.toList.flatMap CatchClause.body ++ cleanup.toList.flatten
  | _ => []

/-- The body of a loop, which is executed in a scope of its own in each iteration. -/
def loopBody? : Stmt → Option Stmt
  | whileLoop _ body _ | doWhile body _ _ | forLoop _ _ _ body _ => some body
  | _ => none

/-- The names that the scopes made for the parts of a statement bind from the beginning. -/
def handlerNames : Stmt → List String
  | tryBlock _ handler _ _ => handler.toList.map CatchClause.name
  | _ => []

/-- The name that a statement declares, if it is a declaration. -/
def declared? : Stmt → Option String
  | declare name _ _ _ => some name
  | function d => some d.name
  | classDecl name _ _ _ => some name
  | _ => none

/-- Executing the statement may declare the name in its scope: it is a declaration of the name, or
one of its branches declares it. -/
inductive Declares (name : String) : Stmt → Prop
  | here {s : Stmt} : name ∈ s.declared? → Declares name s
  | branch {s t : Stmt} : t ∈ s.branches → Declares name t → Declares name s

/-- A declaration declares no more than its own name. -/
theorem Declares.eq_of_declared
    {s : Stmt} {name x : String}
    (h : s.Declares name)
    (hs : s.declared? = some x) :
    name = x := by
  cases h with
  | here hname => exact Option.some.inj (hname.symm.trans hs)
  | branch hbranch _ => cases s <;> simp_all [branches, declared?]

end Stmt

end Lox
