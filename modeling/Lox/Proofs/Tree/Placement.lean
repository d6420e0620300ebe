import Lox.Proofs.Tree.Parts

/-!
# Well-placed code

Some constructs make sense only inside others: `return` inside a function, `break` and `continue`
inside a loop, `this` inside a class and `super` inside a class with a superclass. A function body
begins anew as far as loops are concerned, but it stays in the class that is around it. Code is
well placed if it obeys this throughout, does not use the names `this` and `super` for anything
else, and declares nothing as a branch of an `if` statement.
-/

namespace Lox

/-- What is around code in the text of a program. -/
structure Enclosure where
  inFunction : Bool
  inLoop : Bool
  /-- The innermost class, if there is one: does it have a superclass? -/
  classHasSuperclass : Option Bool
deriving DecidableEq

/-- The names that only the language itself binds. -/
def IsReserved (name : String) : Prop :=
  name = "this" ∨ name = "super"

namespace Expr

/-- The body of the function that an expression makes. -/
def body : Expr → List Stmt
  | function _ body _ => body
  | _ => []

/-- The names that an expression refers to, assigns to or binds as parameters. -/
def names : Expr → List String
  | reference name _ | assign name _ _ => [name]
  | function params _ _ => params
  | _ => []

end Expr

namespace Stmt

/-- The function that a statement declares. -/
def functions : Stmt → List FunctionDecl
  | function d => [d]
  | _ => []

/-- The methods that a statement declares. -/
def methods : Stmt → List FunctionDecl
  | classDecl _ _ methods _ => methods
  | _ => []

/-- Does a statement declare a class with a superclass? -/
def hasSuperclass : Stmt → Bool
  | classDecl _ superclass _ _ => superclass.isSome
  | _ => false

/-- The names that a statement declares, catches a thrown value under or binds as parameters. -/
def names (s : Stmt) : List String :=
  s.declared?.toList ++ s.handlerNames ++ (s.functions ++ s.methods).flatMap FunctionDecl.params

end Stmt

namespace Enclosure

/-- Around a whole program. -/
def outermost : Enclosure :=
  ⟨false, false, none⟩

/-- Around the body of a function. -/
def enterFunction (k : Enclosure) : Enclosure :=
  { k with inFunction := true, inLoop := false }

/-- Around the body of a loop. -/
def enterLoop (k : Enclosure) : Enclosure :=
  { k with inLoop := true }

/-- Around the methods of a class. -/
def enterClass (hasSuperclass : Bool) (k : Enclosure) : Enclosure :=
  { k with classHasSuperclass := some hasSuperclass }

/-- May the expression itself, leaving aside its parts, stand here? -/
def AllowsExpr (k : Enclosure) (e : Expr) : Prop :=
  (∀ name ∈ e.names, ¬IsReserved name) ∧
    match e with
    | .this _ => k.classHasSuperclass.isSome = true
    | .super _ _ => k.classHasSuperclass = some true
    | _ => True

/-- May the statement itself, leaving aside its parts, stand here? -/
def AllowsStmt (k : Enclosure) (s : Stmt) : Prop :=
  (∀ name ∈ s.names, ¬IsReserved name) ∧
    (∀ t ∈ s.branches, t.declared? = none) ∧
      match s with
      | .breakLoop _ | .continueLoop _ => k.inLoop = true
      | .returnValue _ _ => k.inFunction = true
      | _ => True

end Enclosure

mutual

/-- The expression and all code in it is well placed. -/
inductive Expr.Placed : Enclosure → Expr → Prop
  | intro {k : Enclosure} {e : Expr} :
      k.AllowsExpr e →
      (∀ part ∈ e.parts, Expr.Placed k part) →
      (∀ s ∈ e.body, Stmt.Placed k.enterFunction s) →
      Expr.Placed k e

/-- The statement and all code in it is well placed. -/
inductive Stmt.Placed : Enclosure → Stmt → Prop
  | intro {k : Enclosure} {s : Stmt} :
      k.AllowsStmt s →
      (∀ e ∈ s.expressions, Expr.Placed k e) →
      (∀ t ∈ s.branches, Stmt.Placed k t) →
      (∀ t ∈ s.inner, Stmt.Placed k t) →
      (∀ t ∈ s.loopBody?, Stmt.Placed k.enterLoop t) →
      (∀ d ∈ s.functions, ∀ t ∈ d.body, Stmt.Placed k.enterFunction t) →
      (∀ d ∈ s.methods, ∀ t ∈ d.body,
        Stmt.Placed (k.enterClass s.hasSuperclass).enterFunction t) →
      Stmt.Placed k s

end

namespace Expr.Placed

variable {k : Enclosure} {e : Expr}

theorem allowed (h : e.Placed k) : k.AllowsExpr e := by
  cases h
  assumption

theorem parts (h : e.Placed k) : ∀ part ∈ e.parts, part.Placed k := by
  cases h
  assumption

theorem body (h : e.Placed k) : ∀ s ∈ e.body, s.Placed k.enterFunction := by
  cases h
  assumption

end Expr.Placed

namespace Stmt.Placed

variable {k : Enclosure} {s : Stmt}

theorem allowed (h : s.Placed k) : k.AllowsStmt s := by
  cases h
  assumption

theorem expressions (h : s.Placed k) : ∀ e ∈ s.expressions, e.Placed k := by
  cases h
  assumption

theorem branches (h : s.Placed k) : ∀ t ∈ s.branches, t.Placed k := by
  cases h
  assumption

theorem inner (h : s.Placed k) : ∀ t ∈ s.inner, t.Placed k := by
  cases h
  assumption

theorem loopBody (h : s.Placed k) : ∀ t ∈ s.loopBody?, t.Placed k.enterLoop := by
  cases h
  assumption

theorem functions (h : s.Placed k) : ∀ d ∈ s.functions, ∀ t ∈ d.body, t.Placed k.enterFunction := by
  cases h
  assumption

theorem methods (h : s.Placed k) :
    ∀ d ∈ s.methods, ∀ t ∈ d.body, t.Placed (k.enterClass s.hasSuperclass).enterFunction := by
  cases h
  assumption

/-- A well-placed statement that is no declaration declares nothing in its branches either. -/
theorem not_declares
    {name : String}
    (h : s.Placed k)
    (hs : s.declared? = none) :
    ¬s.Declares name := by
  intro hname
  induction hname with
  | here hmem => simp [hs] at hmem
  | branch hbranch _ ih => exact ih (h.branches _ hbranch) (h.allowed.2.1 _ hbranch)

end Stmt.Placed

end Lox
