import Lox.Proofs.Tree.Placement
import Lox.StaticError

/-!
# Misplaced constructs

Which constructs of a program stand where they have no meaning, in the order of the text: a `return` in
the body of no function, a `break` or `continue` in the body of no loop of the innermost function, a
`this` outside of every class, a `super` whose innermost class is missing or has no superclass, and a
class that names itself as its superclass.
-/

namespace Lox

/-- Is the fault that a construct is misplaced? -/
def ParseFault.isMisplaced : ParseFault → Bool
  | .misplaced _ => true
  | _ => false

/-- The kind of the token at which a misplaced construct begins, or of the superclass name. -/
def Misplaced.token : Misplaced → TokenKind
  | returnOutsideFunction => .returnKeyword
  | breakOutsideLoop => .breakKeyword
  | continueOutsideLoop => .continueKeyword
  | thisOutsideClass => .thisKeyword
  | superOutsideClass | superWithoutSuperclass => .superKeyword
  | ownSuperclass => .identifier

/-- A misplaced construct and the offset of its token. -/
structure Site where
  construct : Misplaced
  start : Int
deriving DecidableEq

namespace Enclosure

/-- The place of a construct, if it is misplaced. -/
def siteIf (isMisplaced : Bool) (construct : Misplaced) (span : Span) : List Site :=
  if isMisplaced then [⟨construct, span.start⟩] else []

/-- The place of a `super` inside of `k`, if it is misplaced. -/
def superSite (k : Enclosure) (span : Span) : List Site :=
  match k.classHasSuperclass with
  | none => [⟨.superOutsideClass, span.start⟩]
  | some false => [⟨.superWithoutSuperclass, span.start⟩]
  | some true => []

end Enclosure

open Enclosure (siteIf)

mutual

/-- The misplaced constructs of an expression inside of `k`. -/
def Expr.misplaced (k : Enclosure) : Expr → List Site
  | .literal _ _ => []
  | .reference _ _ => []
  | .assign _ value _ => value.misplaced k
  | .binary left _ right _ => left.misplaced k ++ right.misplaced k
  | .unary _ operand _ => operand.misplaced k
  | .logical left _ right _ => left.misplaced k ++ right.misplaced k
  | .conditional condition thenBranch elseBranch _ =>
      condition.misplaced k ++ thenBranch.misplaced k ++ elseBranch.misplaced k
  | .call callee arguments _ => callee.misplaced k ++ Expr.misplacedAll k arguments
  | .get object _ _ => object.misplaced k
  | .set object _ value _ => object.misplaced k ++ value.misplaced k
  | .this span => siteIf k.classHasSuperclass.isNone .thisOutsideClass span
  | .super _ span => k.superSite span
  | .list elements _ => Expr.misplacedAll k elements
  | .map entries _ => MapEntry.misplacedAll k entries
  | .index object index _ => object.misplaced k ++ index.misplaced k
  | .indexSet object index value _ =>
      object.misplaced k ++ index.misplaced k ++ value.misplaced k
  | .function _ body _ => Stmt.misplacedAll k.enterFunction body

/-- The misplaced constructs of expressions. -/
def Expr.misplacedAll (k : Enclosure) : List Expr → List Site
  | [] => []
  | e :: rest => e.misplaced k ++ Expr.misplacedAll k rest

/-- The misplaced constructs of an expression that may be missing. -/
def Expr.misplaced? (k : Enclosure) : Option Expr → List Site
  | none => []
  | some e => e.misplaced k

/-- The misplaced constructs of a map entry. -/
def MapEntry.misplaced (k : Enclosure) : MapEntry → List Site
  | .mk key value => key.misplaced k ++ value.misplaced k

/-- The misplaced constructs of map entries. -/
def MapEntry.misplacedAll (k : Enclosure) : List MapEntry → List Site
  | [] => []
  | entry :: rest => entry.misplaced k ++ MapEntry.misplacedAll k rest

/-- The misplaced constructs of a statement inside of `k`. -/
def Stmt.misplaced (k : Enclosure) : Stmt → List Site
  | .expression e _ => e.misplaced k
  | .print e _ => e.misplaced k
  | .declare _ initial _ _ => Expr.misplaced? k initial
  | .block statements _ => Stmt.misplacedAll k statements
  | .ifElse condition thenBranch elseBranch _ =>
      condition.misplaced k ++ thenBranch.misplaced k ++ Stmt.misplaced? k elseBranch
  | .whileLoop condition body _ => condition.misplaced k ++ body.misplaced k.enterLoop
  | .doWhile body condition _ => body.misplaced k.enterLoop ++ condition.misplaced k
  | .forLoop initial condition increment body _ =>
      Stmt.misplaced? k initial ++ Expr.misplaced? k condition ++ Expr.misplaced? k increment ++
        body.misplaced k.enterLoop
  | .breakLoop span => siteIf (!k.inLoop) .breakOutsideLoop span
  | .continueLoop span => siteIf (!k.inLoop) .continueOutsideLoop span
  | .function declaration => declaration.misplaced k
  | .returnValue value span =>
      siteIf (!k.inFunction) .returnOutsideFunction span ++ Expr.misplaced? k value
  | .classDecl name superclass methods _ =>
      superclass.toList.flatMap (fun parent => siteIf (parent.1 == name) .ownSuperclass parent.2) ++
        FunctionDecl.misplacedAll (k.enterClass superclass.isSome) methods
  | .tryBlock body handler cleanup _ =>
      Stmt.misplacedAll k body ++ CatchClause.misplaced? k handler ++
        Stmt.misplacedAll? k cleanup
  | .throwValue value _ => value.misplaced k
  | .dump _ => []

/-- The misplaced constructs of statements. -/
def Stmt.misplacedAll (k : Enclosure) : List Stmt → List Site
  | [] => []
  | s :: rest => s.misplaced k ++ Stmt.misplacedAll k rest

/-- The misplaced constructs of a statement that may be missing. -/
def Stmt.misplaced? (k : Enclosure) : Option Stmt → List Site
  | none => []
  | some s => s.misplaced k

/-- The misplaced constructs of statements that may be missing. -/
def Stmt.misplacedAll? (k : Enclosure) : Option (List Stmt) → List Site
  | none => []
  | some statements => Stmt.misplacedAll k statements

/-- The misplaced constructs of a catch clause that may be missing. -/
def CatchClause.misplaced? (k : Enclosure) : Option CatchClause → List Site
  | none => []
  | some clause => clause.misplaced k

/-- The misplaced constructs of a catch clause. -/
def CatchClause.misplaced (k : Enclosure) : CatchClause → List Site
  | .mk _ body => Stmt.misplacedAll k body

/-- The misplaced constructs of a named function or a method. -/
def FunctionDecl.misplaced (k : Enclosure) : FunctionDecl → List Site
  | .mk _ _ body _ => Stmt.misplacedAll k.enterFunction body

/-- The misplaced constructs of methods. -/
def FunctionDecl.misplacedAll (k : Enclosure) : List FunctionDecl → List Site
  | [] => []
  | d :: rest => d.misplaced k ++ FunctionDecl.misplacedAll k rest

end

section Lists

variable (k : Enclosure)

theorem Expr.misplacedAll_eq (es : List Expr) :
    Expr.misplacedAll k es = es.flatMap (Expr.misplaced k) := by
  induction es with
  | nil => rfl
  | cons e rest ih => rw [Expr.misplacedAll, ih, List.flatMap_cons]

theorem MapEntry.misplacedAll_eq (entries : List MapEntry) :
    MapEntry.misplacedAll k entries = entries.flatMap (MapEntry.misplaced k) := by
  induction entries with
  | nil => rfl
  | cons entry rest ih => rw [MapEntry.misplacedAll, ih, List.flatMap_cons]

theorem FunctionDecl.misplacedAll_eq (methods : List FunctionDecl) :
    FunctionDecl.misplacedAll k methods = methods.flatMap (FunctionDecl.misplaced k) := by
  induction methods with
  | nil => rfl
  | cons d rest ih => rw [FunctionDecl.misplacedAll, ih, List.flatMap_cons]

end Lists

/-- The misplaced constructs of a program. -/
def Program.misplaced (program : Program) : List Site :=
  Stmt.misplacedAll .outermost program.statements

end Lox
