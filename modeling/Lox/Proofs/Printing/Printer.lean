import Mathlib.Data.List.Forall2
import Lox.Proofs.Surface.Grammar
import Lox.Proofs.Tree.Relocation

/-!
# Printing expressions

An expression is printed as a list of symbols, with parentheses around it and around every part of
it that is an expression. A symbol leaves open what the parser does not look at: a token that spells
it may stand anywhere, and only the text of names and the value of literals matter.
-/

namespace Lox

/-- What is asked of a token: a kind, a name, or a value that the token stands for. -/
inductive Symbol
  | plain (kind : TokenKind)
  | name (lexeme : String)
  | value (literal : Literal)

/-- The token is as the symbol asks. -/
def Token.Spells (token : Token) : Symbol → Prop
  | .plain kind => token.kind = kind
  | .name lexeme => token.kind = .identifier ∧ token.lexeme = lexeme
  | .value literal => Surface.literal? token = some literal

/-- The tokens spell the symbols, one by one. -/
abbrev Spelled (w : List Token) (symbols : List Symbol) : Prop :=
  List.Forall₂ Token.Spells w symbols

section Operators

/-- The kind of the tokens that spell an operator. -/
def BinaryOp.kind : BinaryOp → TokenKind
  | add => .plus
  | subtract => .minus
  | multiply => .star
  | divide => .slash
  | remainder => .percent
  | power => .power
  | equal => .equal
  | notEqual => .notEqual
  | greater => .greater
  | greaterEqual => .greaterEqual
  | less => .less
  | lessEqual => .lessEqual

/-- The kind of the tokens that spell an operator. -/
def UnaryOp.kind : UnaryOp → TokenKind
  | negate => .minus
  | not => .bang

/-- The kind of the tokens that spell an operator. -/
def LogicalOp.kind : LogicalOp → TokenKind
  | and => .andKeyword
  | or => .orKeyword

end Operators

section Printing

/-- Symbols in parentheses. -/
def Symbol.enclose (symbols : List Symbol) : List Symbol :=
  [.plain .leftParen] ++ symbols ++ [.plain .rightParen]

/-- Items separated by commas. -/
def Symbol.commas (items : List (List Symbol)) : List Symbol :=
  [.plain .comma].intercalate items

open Lox.Symbol (enclose commas)

mutual

/-- An expression without the parentheses around it; what refers to an instance or has a body is
not printed. -/
def Expr.inside : Expr → List Symbol
  | .literal value _ => [.value value]
  | .reference name _ => [.name name]
  | .assign name value _ => [.name name, .plain .assign] ++ enclose value.inside
  | .binary left op right _ => enclose left.inside ++ [.plain op.kind] ++ enclose right.inside
  | .unary op operand _ => [.plain op.kind] ++ enclose operand.inside
  | .logical left op right _ => enclose left.inside ++ [.plain op.kind] ++ enclose right.inside
  | .conditional condition thenBranch elseBranch _ =>
      enclose condition.inside ++ [.plain .question] ++ enclose thenBranch.inside ++
        [.plain .colon] ++ enclose elseBranch.inside
  | .call callee arguments _ =>
      enclose callee.inside ++ [.plain .leftParen] ++ commas (Expr.printedAll arguments) ++
        [.plain .rightParen]
  | .get object name _ => enclose object.inside ++ [.plain .dot, .name name]
  | .set object name value _ =>
      enclose object.inside ++ [.plain .dot, .name name] ++ [.plain .assign] ++
        enclose value.inside
  | .index object index _ =>
      enclose object.inside ++ [.plain .leftBracket] ++ enclose index.inside ++
        [.plain .rightBracket]
  | .indexSet object index value _ =>
      enclose object.inside ++ [.plain .leftBracket] ++ enclose index.inside ++
        [.plain .rightBracket] ++ [.plain .assign] ++ enclose value.inside
  | .list elements _ =>
      [.plain .leftBracket] ++ commas (Expr.printedAll elements) ++ [.plain .rightBracket]
  | .map entries _ =>
      [.plain .leftBrace] ++ commas (MapEntry.printedAll entries) ++ [.plain .rightBrace]
  | .this _ | .super _ _ | .function _ _ _ => []

/-- Every expression in parentheses. -/
def Expr.printedAll : List Expr → List (List Symbol)
  | [] => []
  | e :: es => enclose e.inside :: Expr.printedAll es

/-- A key and its value, both in parentheses. -/
def MapEntry.printed : MapEntry → List Symbol
  | .mk key value => enclose key.inside ++ [.plain .colon] ++ enclose value.inside

/-- Every entry with its key and value in parentheses. -/
def MapEntry.printedAll : List MapEntry → List (List Symbol)
  | [] => []
  | entry :: entries => entry.printed :: MapEntry.printedAll entries

end

attribute [simp] Expr.inside

/-- An expression in parentheses. -/
def Expr.printed (e : Expr) : List Symbol :=
  enclose e.inside

theorem Expr.printedAll_eq (es : List Expr) : Expr.printedAll es = es.map Expr.printed := by
  induction es with
  | nil => rfl
  | cons e es ih => exact congrArg (e.printed :: ·) ih

theorem MapEntry.printedAll_eq (entries : List MapEntry) :
    MapEntry.printedAll entries = entries.map MapEntry.printed := by
  induction entries with
  | nil => rfl
  | cons entry entries ih => exact congrArg (entry.printed :: ·) ih

end Printing

section Shape

mutual

/-- Can the expression be printed? It has no part that refers to an instance or has a body, and no
call has too many arguments. -/
def Expr.isPrintable : Expr → Bool
  | .literal _ _ | .reference _ _ => true
  | .assign _ value _ => value.isPrintable
  | .binary left _ right _ => left.isPrintable && right.isPrintable
  | .unary _ operand _ => operand.isPrintable
  | .logical left _ right _ => left.isPrintable && right.isPrintable
  | .conditional condition thenBranch elseBranch _ =>
      condition.isPrintable && thenBranch.isPrintable && elseBranch.isPrintable
  | .call callee arguments _ =>
      callee.isPrintable && decide (arguments.length ≤ maxArguments) &&
        Expr.allPrintable arguments
  | .get object _ _ => object.isPrintable
  | .set object _ value _ => object.isPrintable && value.isPrintable
  | .index object index _ => object.isPrintable && index.isPrintable
  | .indexSet object index value _ =>
      object.isPrintable && index.isPrintable && value.isPrintable
  | .list elements _ => Expr.allPrintable elements
  | .map entries _ => MapEntry.allPrintable entries
  | .this _ | .super _ _ | .function _ _ _ => false

/-- Can every one of the expressions be printed? -/
def Expr.allPrintable : List Expr → Bool
  | [] => true
  | e :: es => e.isPrintable && Expr.allPrintable es

/-- Can the key and the value be printed? -/
def MapEntry.isPrintable : MapEntry → Bool
  | .mk key value => key.isPrintable && value.isPrintable

/-- Can every one of the entries be printed? -/
def MapEntry.allPrintable : List MapEntry → Bool
  | [] => true
  | entry :: entries => entry.isPrintable && MapEntry.allPrintable entries

end

attribute [simp] Expr.isPrintable

theorem Expr.allPrintable_eq (es : List Expr) :
    Expr.allPrintable es = es.all Expr.isPrintable := by
  induction es with
  | nil => rfl
  | cons e es ih => exact congrArg (e.isPrintable && ·) ih

theorem MapEntry.allPrintable_eq (entries : List MapEntry) :
    MapEntry.allPrintable entries = entries.all MapEntry.isPrintable := by
  induction entries with
  | nil => rfl
  | cons entry entries ih => exact congrArg (entry.isPrintable && ·) ih

mutual

/-- The height of an expression as a tree of expressions; one without parts has height zero. -/
def Expr.height : Expr → Nat
  | .literal _ _ | .reference _ _ | .this _ | .super _ _ | .function _ _ _ => 0
  | .assign _ value _ => value.height + 1
  | .binary left _ right _ => max left.height right.height + 1
  | .unary _ operand _ => operand.height + 1
  | .logical left _ right _ => max left.height right.height + 1
  | .conditional condition thenBranch elseBranch _ =>
      max condition.height (max thenBranch.height elseBranch.height) + 1
  | .call callee arguments _ => max (callee.height + 1) (Expr.heightOver arguments)
  | .get object _ _ => object.height + 1
  | .set object _ value _ => max object.height value.height + 1
  | .index object index _ => max object.height index.height + 1
  | .indexSet object index value _ => max object.height (max index.height value.height) + 1
  | .list elements _ => Expr.heightOver elements
  | .map entries _ => MapEntry.heightOver entries

/-- The height of what has these expressions as its parts. -/
def Expr.heightOver : List Expr → Nat
  | [] => 0
  | e :: es => max (e.height + 1) (Expr.heightOver es)

/-- The greater one of the heights of the key and the value. -/
def MapEntry.height : MapEntry → Nat
  | .mk key value => max key.height value.height

/-- The height of what has these entries as its parts. -/
def MapEntry.heightOver : List MapEntry → Nat
  | [] => 0
  | entry :: entries => max (entry.height + 1) (MapEntry.heightOver entries)

end

attribute [simp] Expr.height

theorem Expr.height_lt_heightOver {e : Expr} {es : List Expr} (h : e ∈ es) :
    e.height < Expr.heightOver es := by
  induction h with
  | head es => exact Nat.lt_of_lt_of_le (Nat.lt_succ_self _) (Nat.le_max_left ..)
  | tail _ _ ih => exact Nat.lt_of_lt_of_le ih (Nat.le_max_right ..)

theorem MapEntry.height_lt_heightOver {entry : MapEntry} {entries : List MapEntry}
    (h : entry ∈ entries) :
    entry.height < MapEntry.heightOver entries := by
  induction h with
  | head entries => exact Nat.lt_of_lt_of_le (Nat.lt_succ_self _) (Nat.le_max_left ..)
  | tail _ _ ih => exact Nat.lt_of_lt_of_le ih (Nat.le_max_right ..)

end Shape

section Spelling

variable {w : List Token} {first second : List Symbol}

theorem spelled_append :
    Spelled w (first ++ second) ↔ ∃ u v, w = u ++ v ∧ Spelled u first ∧ Spelled v second := by
  induction first generalizing w with
  | nil => simp
  | cons symbol first ih =>
      simp only [List.cons_append, List.forall₂_cons_right_iff, ih]
      constructor
      · rintro ⟨token, _, htoken, ⟨u, v, rfl, hu, hv⟩, rfl⟩
        exact ⟨token :: u, v, rfl, ⟨token, u, htoken, hu, rfl⟩, hv⟩
      · rintro ⟨_, v, rfl, ⟨token, u, htoken, hu, rfl⟩, hv⟩
        exact ⟨token, u ++ v, htoken, ⟨u, v, rfl, hu, hv⟩, rfl⟩

theorem spelled_singleton {symbol : Symbol} :
    Spelled w [symbol] ↔ ∃ token : Token, w = [token] ∧ token.Spells symbol := by
  simp only [List.forall₂_cons_right_iff, List.forall₂_nil_right_iff]
  constructor
  · rintro ⟨token, _, htoken, rfl, rfl⟩
    exact ⟨token, rfl, htoken⟩
  · rintro ⟨token, rfl, htoken⟩
    exact ⟨token, [], htoken, rfl, rfl⟩

theorem spelled_enclose {symbols : List Symbol} :
    Spelled w (Symbol.enclose symbols) ↔
      ∃ opening v closing, w = [opening] ++ v ++ [closing] ∧ opening.kind = .leftParen ∧
        Spelled v symbols ∧ closing.kind = .rightParen := by
  simp only [Symbol.enclose, spelled_append, spelled_singleton]
  constructor
  · rintro ⟨_, _, rfl, ⟨_, v, rfl, ⟨opening, rfl, hopening⟩, hv⟩, closing, rfl, hclosing⟩
    exact ⟨opening, v, closing, rfl, hopening, hv, hclosing⟩
  · rintro ⟨opening, v, closing, rfl, hopening, hv, hclosing⟩
    exact ⟨_, _, rfl, ⟨_, v, rfl, ⟨opening, rfl, hopening⟩, hv⟩, closing, rfl, hclosing⟩

/-- What is printed can be spelled. -/
theorem exists_spelled (symbols : List Symbol) : ∃ tokens, Spelled tokens symbols := by
  have hsymbol (symbol : Symbol) : ∃ token : Token, token.Spells symbol := by
    let token (kind : TokenKind) (lexeme : String) (literal : Option Literal) : Token :=
      ⟨kind, lexeme, literal, Position.first, Relocation.nowhere⟩
    cases symbol with
    | plain kind => exact ⟨token kind "" none, rfl⟩
    | name lexeme => exact ⟨token .identifier lexeme none, rfl, rfl⟩
    | value literal =>
        cases literal with
        | nil => exact ⟨token .nilKeyword "" none, rfl⟩
        | boolean b =>
            cases b with
            | true => exact ⟨token .trueKeyword "" none, rfl⟩
            | false => exact ⟨token .falseKeyword "" none, rfl⟩
        | number x => exact ⟨token .number "" (some (.number x)), rfl⟩
        | string s => exact ⟨token .string "" (some (.string s)), rfl⟩
  induction symbols with
  | nil => exact ⟨[], .nil⟩
  | cons symbol symbols ih =>
      obtain ⟨token, htoken⟩ := hsymbol symbol
      obtain ⟨tokens, htokens⟩ := ih
      exact ⟨token :: tokens, .cons htoken htokens⟩

end Spelling

end Lox
