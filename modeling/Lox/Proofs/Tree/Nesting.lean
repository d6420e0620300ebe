import Lox.Proofs.Tree.Parts

/-!
# Levels of nesting

What lies around a part of a program is counted in two ways: in levels, of which there is a limit,
and in bodies of functions. A statement that is no declaration is a level, a whole expression inside
another construct is one, the right-hand side of an assignment, the operand of a sign, the exponent of a
power and the last branch of a condition are one, and so is the block that is the body of a function.
An expression that is the body of an arrow function is no level.
-/

namespace Lox

/-- An expression or a statement. -/
inductive Node
  | expression (e : Expr)
  | statement (s : Stmt)

/-- A part of a node, and how many levels and bodies of functions lie around it but not around the
node. -/
structure Inner where
  levels : Nat
  bodies : Nat
  node : Node

/-- A statement that is no declaration is a level. -/
def Stmt.level (s : Stmt) : Nat :=
  if s.declared?.isSome then 0 else 1

namespace Inner

/-- An expression so many levels further in. -/
def value (levels : Nat) (e : Expr) : Inner :=
  ⟨levels, 0, .expression e⟩

/-- A statement of a statement. -/
def stmt (s : Stmt) : Inner :=
  ⟨s.level, 0, .statement s⟩

/-- A statement of the block that is the body of a function. -/
def bodyStmt (s : Stmt) : Inner :=
  ⟨1 + s.level, 1, .statement s⟩

end Inner

/-- The expression that is the body of an arrow function: the body is a statement that returns its
value and has no token of its own. -/
def Stmt.arrowValue? : List Stmt → Option Expr
  | [.returnValue (some value) span] => if span = value.span then some value else none
  | _ => none

/-- What lies directly inside the body of a function that is an expression. -/
def Stmt.bodyNested (body : List Stmt) : List Inner :=
  match Stmt.arrowValue? body with
  | some value => [⟨0, 1, .expression value⟩]
  | none => body.map .bodyStmt

/-- What lies directly inside an expression. -/
def Expr.nested : Expr → List Inner
  | .literal _ _ | .reference _ _ | .this _ | .super _ _ => []
  | .assign _ value _ => [.value 1 value]
  | .binary left op right _ => [.value 0 left, .value (if op = .power then 1 else 0) right]
  | .unary _ operand _ => [.value 1 operand]
  | .logical left _ right _ => [.value 0 left, .value 0 right]
  | .conditional condition thenBranch elseBranch _ =>
      [.value 0 condition, .value 1 thenBranch, .value 1 elseBranch]
  | .call callee arguments _ => .value 0 callee :: arguments.map (.value 1)
  | .get object _ _ => [.value 0 object]
  | .set object _ value _ => [.value 0 object, .value 1 value]
  | .list elements _ => elements.map (.value 1)
  | .map entries _ => (entries.flatMap MapEntry.parts).map (.value 1)
  | .index object key _ => [.value 0 object, .value 1 key]
  | .indexSet object key value _ => [.value 0 object, .value 1 key, .value 1 value]
  | .function _ body _ => Stmt.bodyNested body

/-- What lies directly inside a statement. The first clause of a `for` statement is no level. -/
def Stmt.nested : Stmt → List Inner
  | .expression e _ | .print e _ | .throwValue e _ => [.value 1 e]
  | .declare _ value _ _ | .returnValue value _ => value.toList.map (.value 1)
  | .block statements _ => statements.map .stmt
  | .ifElse condition thenBranch elseBranch _ =>
      .value 1 condition :: .stmt thenBranch :: elseBranch.toList.map .stmt
  | .whileLoop condition body _ | .doWhile body condition _ => [.value 1 condition, .stmt body]
  | .forLoop initial condition increment body _ =>
      .stmt body :: initial.toList.map (⟨0, 0, .statement ·⟩) ++
        (condition.toList ++ increment.toList).map (.value 1)
  | .function d => d.body.map .bodyStmt
  | .classDecl _ _ methods _ => methods.flatMap fun d => d.body.map .bodyStmt
  | .tryBlock body handler cleanup _ =>
      (body ++ handler.toList.flatMap CatchClause.body ++ cleanup.toList.flatten).map .stmt
  | .breakLoop _ | .continueLoop _ | .dump _ => []

namespace Node

/-- What lies directly inside a node. -/
def nested : Node → List Inner
  | expression e => e.nested
  | statement s => s.nested

/-- Is the node an arrow function whose body is an expression? -/
def isArrow : Node → Bool
  | expression (.function _ body _) => (Stmt.arrowValue? body).isSome
  | _ => false

/-- The second node is the first one or lies inside it, with so many levels and so many bodies of
functions around it that are not around the first one. -/
inductive Contains : Node → Nat → Nat → Node → Prop
  | self (a : Node) : Contains a 0 0 a
  | part {a b : Node} {part : Inner} {levels bodies : Nat} :
      part ∈ a.nested → Contains part.node levels bodies b →
        Contains a (part.levels + levels) (part.bodies + bodies) b

/-- Nothing inside the node has more than `room` levels around it. -/
def Fits (room : Nat) (a : Node) : Prop :=
  ∀ levels bodies b, a.Contains levels bodies b → levels ≤ room

end Node

/-- Neither the part nor anything inside it has more than `room` levels around it. -/
def Inner.Fits (room : Nat) (part : Inner) : Prop :=
  ∃ left, part.levels + left ≤ room ∧ part.node.Fits left

namespace Node

variable {room : Nat} {a : Node} {part : Inner}

theorem fits_iff : a.Fits room ↔ ∀ part ∈ a.nested, part.Fits room := by
  constructor
  · intro h part hpart
    have hle : part.levels ≤ room := h _ _ _ (.part hpart (.self _))
    refine ⟨room - part.levels, by omega, fun levels bodies b hb => ?_⟩
    have := h _ _ _ (.part hpart hb)
    omega
  · rintro h levels bodies b (_ | ⟨hpart, hb⟩)
    · exact Nat.zero_le _
    · obtain ⟨left, hle, hleft⟩ := h _ hpart
      have := hleft _ _ _ hb
      omega

theorem Fits.mono {more : Nat} (h : a.Fits room) (hle : room ≤ more) : a.Fits more :=
  fun levels bodies b hb => Nat.le_trans (h levels bodies b hb) hle

/-- Every body is a level, except that of an arrow function. -/
theorem bodies_le_of_mem (hpart : part ∈ a.nested) (ha : a.isArrow = false) :
    part.bodies ≤ part.levels := by
  cases a with
  | expression e =>
      cases e with
      | function params body span =>
          have hnone : Stmt.arrowValue? body = none := by
            rwa [isArrow, Option.isSome_eq_false_iff, Option.isNone_iff_eq_none] at ha
          simp only [nested, Expr.nested, Stmt.bodyNested, hnone, List.mem_map] at hpart
          obtain ⟨s, -, rfl⟩ := hpart
          exact Nat.le_add_right _ _
      | _ =>
          simp only [nested, Expr.nested, List.mem_cons, List.mem_map, List.not_mem_nil, or_false,
            List.mem_flatMap] at hpart <;>
          grind [Inner.value]
  | statement s =>
      cases s with
      | function d =>
          obtain ⟨s, -, rfl⟩ := List.mem_map.mp hpart
          exact Nat.le_add_right _ _
      | classDecl name parent methods span =>
          obtain ⟨d, -, hpart⟩ := List.mem_flatMap.mp hpart
          obtain ⟨s, -, rfl⟩ := List.mem_map.mp hpart
          exact Nat.le_add_right _ _
      | _ =>
          simp only [nested, Stmt.nested, List.mem_cons, List.mem_map, List.mem_append,
            List.not_mem_nil, or_false] at hpart <;>
          grind [Inner.value, Inner.stmt]

/-- Without arrow functions whose bodies are expressions, a part has no more bodies around it than
levels. -/
theorem Contains.bodies_le_levels
    {levels bodies : Nat} {b : Node}
    (h : a.Contains levels bodies b)
    (ha : ∀ levels bodies c, a.Contains levels bodies c → c.isArrow = false) :
    bodies ≤ levels := by
  induction h with
  | self a => exact Nat.le_refl 0
  | part hpart _ ih =>
      have hdirect := bodies_le_of_mem hpart (ha _ _ _ (.self _))
      have hinside := ih fun _ _ c hc => ha _ _ c (.part hpart hc)
      omega

end Node

namespace Inner

variable {room : Nat} {e : Expr} {part : Inner}

@[simp] theorem fits_value_zero : (value 0 e).Fits room ↔ (Node.expression e).Fits room := by
  constructor
  · rintro ⟨left, hle, h⟩
    exact h.mono (by simp only [value] at hle; omega)
  · exact fun h => ⟨room, by simp [value], h⟩

theorem fits_value_one (h : (Node.expression e).Fits room) : (value 1 e).Fits (room + 1) :=
  ⟨room, by simp [value, Nat.add_comm], h⟩

end Inner

namespace Program

/-- The node is a statement of the program or lies inside one, with so many levels and so many bodies
of functions around it. -/
def Contains (program : Program) (levels bodies : Nat) (a : Node) : Prop :=
  ∃ s ∈ program.statements, ∃ more, levels = s.level + more ∧
    (Node.statement s).Contains more bodies a

theorem levels_le_of_fits
    {program : Program} {room : Nat}
    (h : ∀ s ∈ program.statements, (Inner.stmt s).Fits room)
    {levels bodies : Nat} {a : Node}
    (ha : program.Contains levels bodies a) :
    levels ≤ room := by
  obtain ⟨s, hs, more, rfl, hmore⟩ := ha
  obtain ⟨left, hle, hleft⟩ := h s hs
  have := hleft _ _ _ hmore
  simp only [Inner.stmt] at hle
  omega

end Program

end Lox
