import Lox.Tree

/-!
# Outlines

An outline is a tree in uniform form: a node has a kind, a span and named fields. It is the form in
which trees are listed, and `Outline.debug` writes it on one line.
-/

namespace Lox

/-- A tree in uniform form. -/
inductive Outline
  | literal (value : Literal)
  | items (elements : List Outline)
  | pair (first second : Outline)
  | node (kind : String) (span : Option Span) (fields : List (String × Outline))

namespace Outline

/-- Nothing. -/
def absent : Outline := .literal .nil

/-- A text. -/
def text (s : String) : Outline := .literal (.string s)

/-- Several texts. -/
def texts (ss : List String) : Outline := .items (ss.map text)

/-- Texts with separators between them. -/
def commaSeparated (parts : List String) : String :=
  ", ".intercalate parts

mutual

/-- The outline on one line, without spans. -/
def debug : Outline → String
  | .literal value => value.debug
  | .items elements => "[" ++ commaSeparated (debugAll elements) ++ "]"
  | .pair first second => "(" ++ debug first ++ ", " ++ debug second ++ ")"
  | .node kind _ fields => kind ++ "(" ++ commaSeparated (debugFields fields) ++ ")"

/-- Every element on one line. -/
def debugAll : List Outline → List String
  | [] => []
  | element :: rest => debug element :: debugAll rest

/-- Every field with its name. -/
def debugFields : List (String × Outline) → List String
  | [] => []
  | (name, value) :: rest => (name ++ "=" ++ debug value) :: debugFields rest

end

end Outline

mutual

/-- The outline of an expression. -/
def Expr.outline : Expr → Outline
  | .literal value span => .node "LiteralExpression" span [("value", .literal value)]
  | .reference name span => .node "VariableExpression" span [("name", .text name)]
  | .assign name value span =>
      .node "AssignmentExpression" span [("name", .text name), ("value", value.outline)]
  | .binary left op right span =>
      .node "BinaryExpression" span
        [("left", left.outline), ("operator", .text op.text), ("right", right.outline)]
  | .unary op operand span =>
      .node "UnaryExpression" span [("operator", .text op.text), ("operand", operand.outline)]
  | .logical left op right span =>
      .node "LogicalExpression" span
        [("left", left.outline), ("operator", .text op.text), ("right", right.outline)]
  | .conditional condition thenBranch elseBranch span =>
      .node "ConditionalExpression" span
        [("condition", condition.outline), ("then_branch", thenBranch.outline),
          ("else_branch", elseBranch.outline)]
  | .call callee arguments span =>
      .node "CallExpression" span
        [("callee", callee.outline), ("arguments", .items (outlineExprs arguments))]
  | .get object name span =>
      .node "GetExpression" span [("object", object.outline), ("name", .text name)]
  | .set object name value span =>
      .node "SetExpression" span
        [("object", object.outline), ("name", .text name), ("value", value.outline)]
  | .this span => .node "ThisExpression" span []
  | .super method span => .node "SuperExpression" span [("method", .text method)]
  | .list elements span =>
      .node "ListExpression" span [("elements", .items (outlineExprs elements))]
  | .map entries span => .node "MapExpression" span [("pairs", .items (outlineEntries entries))]
  | .index object index span =>
      .node "IndexExpression" span [("object", object.outline), ("index", index.outline)]
  | .indexSet object index value span =>
      .node "IndexSetExpression" span
        [("object", object.outline), ("index", index.outline), ("value", value.outline)]
  | .function params body span =>
      .node "FunctionExpression" span
        [("name", .absent), ("params", .texts params), ("body", .items (outlineStmts body))]

/-- The outlines of expressions. -/
def outlineExprs : List Expr → List Outline
  | [] => []
  | e :: rest => e.outline :: outlineExprs rest

/-- The outline of an optional expression. -/
def outlineExpr? : Option Expr → Outline
  | none => .absent
  | some e => e.outline

/-- The outline of a map entry. -/
def MapEntry.outline : MapEntry → Outline
  | .mk key value => .pair key.outline value.outline

/-- The outlines of map entries. -/
def outlineEntries : List MapEntry → List Outline
  | [] => []
  | entry :: rest => entry.outline :: outlineEntries rest

/-- The outline of a statement. -/
def Stmt.outline : Stmt → Outline
  | .expression e span => .node "ExpressionStatement" span [("expression", e.outline)]
  | .print e span => .node "PrintStatement" span [("expression", e.outline)]
  | .declare name initial isConst span =>
      .node "VarStatement" span
        [("name", .text name), ("initializer", outlineExpr? initial),
          ("is_const", .literal (.boolean isConst))]
  | .block statements span =>
      .node "BlockStatement" span [("statements", .items (outlineStmts statements))]
  | .ifElse condition thenBranch elseBranch span =>
      .node "IfStatement" span
        [("condition", condition.outline), ("then_branch", thenBranch.outline),
          ("else_branch", outlineStmt? elseBranch)]
  | .whileLoop condition body span =>
      .node "WhileStatement" span
        [("condition", condition.outline), ("body", body.outline),
          ("is_do_while", .literal (.boolean false))]
  | .doWhile body condition span =>
      .node "DoWhileStatement" span
        [("condition", condition.outline), ("body", body.outline),
          ("is_do_while", .literal (.boolean true))]
  | .forLoop initial condition increment body span =>
      .node "ForStatement" span
        [("initializer", outlineStmt? initial), ("condition", outlineExpr? condition),
          ("increment", outlineExpr? increment), ("body", body.outline)]
  | .breakLoop span => .node "BreakStatement" span []
  | .continueLoop span => .node "ContinueStatement" span []
  | .function declaration => declaration.outline
  | .returnValue value span => .node "ReturnStatement" span [("value", outlineExpr? value)]
  | .classDecl name superclass methods span =>
      let parent :=
        match superclass with
        | some (parent, parentSpan) =>
            Outline.node "VariableExpression" parentSpan [("name", .text parent)]
        | none => .absent
      .node "ClassStatement" span
        [("name", .text name), ("superclass", parent),
          ("methods", .items (outlineDecls methods))]
  | .tryBlock body handler cleanup span =>
      .node "TryStatement" span
        ([("try_body", Outline.items (outlineStmts body))] ++ outlineHandler handler ++
          [("finally_body", outlineStmts? cleanup)])
  | .throwValue value span => .node "ThrowStatement" span [("value", value.outline)]
  | .dump span => .node "DumpStatement" span []

/-- The outlines of statements. -/
def outlineStmts : List Stmt → List Outline
  | [] => []
  | s :: rest => s.outline :: outlineStmts rest

/-- The outline of an optional statement. -/
def outlineStmt? : Option Stmt → Outline
  | none => .absent
  | some s => s.outline

/-- The outline of optional statements. -/
def outlineStmts? : Option (List Stmt) → Outline
  | none => .absent
  | some statements => .items (outlineStmts statements)

/-- The fields of an optional catch clause. -/
def outlineHandler : Option CatchClause → List (String × Outline)
  | none => [("catch_variable", .absent), ("catch_body", .absent)]
  | some (.mk name body) =>
      [("catch_variable", .text name), ("catch_body", .items (outlineStmts body))]

/-- The outline of a named function or method. -/
def FunctionDecl.outline : FunctionDecl → Outline
  | .mk name params body span =>
      .node "FunctionStatement" span
        [("name", .text name), ("params", .texts params), ("body", .items (outlineStmts body))]

/-- The outlines of methods. -/
def outlineDecls : List FunctionDecl → List Outline
  | [] => []
  | declaration :: rest => declaration.outline :: outlineDecls rest

end

/-- The outline of a program. -/
def Program.outline (program : Program) : Outline :=
  .node "Program" program.span? [("statements", .items (outlineStmts program.statements))]

end Lox
