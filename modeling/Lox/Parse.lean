import Lox.Parse.Statement

/-!
# Reading programs

`Grammar.ofDepth` ties the readers together: the constructs inside a construct are read with the
grammar of one level less. Every way from a reader back to itself counts a level of nesting or an
arrow body, so the limits on these are the levels that are ever needed, and the grammar of depth
zero is never reached.
-/

namespace Lox

namespace Parse

/-- The readers for code with at most `depth` levels of nesting. -/
def Grammar.ofDepth : Nat → Grammar
  | 0 => ⟨tooDeep, tooDeep, tooDeep, tooDeep, tooDeep⟩
  | depth + 1 =>
      let g := Grammar.ofDepth depth
      ⟨Parse.assignment g, Parse.ternary g, Parse.unary g, Parse.statement g,
        Parse.declaration g⟩

/-- The readers that are deep enough for every program. -/
def grammar : Grammar :=
  Grammar.ofDepth (maxNesting + maxArrowNesting + 2)

/-- The statements of a program. -/
def program : Parse (List Stmt) := do
  let statements ← manyUntil atEnd grammar.declaration (← budget) []
  return statements.filterMap id

end Parse

namespace Program

/-- The program that tokens spell, the last of which is the end of the input; otherwise the syntax
errors, all of them or just the first. -/
def ofTokens (tokens : List Token) (collectAll : Bool) : Except (List ParseError) Program :=
  match tokens.getLast? with
  | none => .ok ⟨[]⟩
  | some final =>
      let start : Parse.Cursor := ⟨tokens.headD final, tokens.dropLast, final, []⟩
      match Parse.program (Parse.Context.outermost collectAll) start with
      | .ok statements s => if s.errors.isEmpty then .ok ⟨statements⟩ else .error s.errors
      | .fail e s => .error (s.errors ++ [e])
      | .abort errors => .error errors

/-- The program that a registered text spells; otherwise its static errors. Faults of the scan
keep the text from being parsed. -/
def ofText
    (file : Nat)
    (text : List Char)
    (collectAll : Bool) :
    Except (List StaticError) Program :=
  match Scan.tokenize file text collectAll with
  | .error errors => .error (errors.map .lexical)
  | .ok tokens =>
      match ofTokens tokens collectAll with
      | .error errors => .error (errors.map .syntactic)
      | .ok program => .ok program

end Program

end Lox
