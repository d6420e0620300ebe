import Lox.Proofs.Parse.Comparison.Expression

/-!
# Readers of statements and programs under a comparison

Every statement is a `whole`: its last token, or the absence of a further clause, ends it. A lawful
comparison relates the reader of programs to itself (`Lawful.program`), by induction on the depth
of the grammar.
-/

namespace Lox.Parse

/-- Passing a token is requiring it where it is found. -/
theorem accept_eq (kind : TokenKind) :
    accept kind =
      check kind >>= fun found =>
        if found then (do let _ ← require kind ""; return true) else pure false := by
  funext c s
  unfold accept require consume
  simp only [bind_apply, check]
  split
  · next h => simp only [bind_apply, check, h]; rfl
  · rfl

namespace Comparison.Lawful

variable {C : Comparison} (hC : C.Lawful) {g g' : Grammar} (hg : g.Comparable C g')
include hC

section Clauses

/-- A keyword that goes on with a statement is looked for where the statement could end. -/
theorem accept_continues {kind : TokenKind} (h : continuesStatement kind = true) :
    C.reads .tail (Parse.accept kind) (Parse.accept kind) := by
  rw [accept_eq]
  refine hC.trailing (hC.check_continues h) fun found => ?_
  cases found with
  | true =>
      exact hC.within_extent (hC.closing (hC.require kind "") fun _ => hC.pure rfl)
        ⟨by decide, fun _ => rfl⟩
  | false => exact hC.pure rfl

include hg

theorem catchClause : C.reads .tail (Parse.catchClause g) (Parse.catchClause g') := by
  refine hC.trailing (hC.accept_continues rfl) fun found => ?_
  cases found with
  | true =>
      refine hC.within_extent (x := .whole) ?_ ⟨by decide, fun _ => rfl⟩
      refine hC.before (hC.part_of (hC.require _ _)) fun _ => ?_
      refine hC.before (hC.part_of (hC.require _ _)) fun name => ?_
      refine hC.before (hC.part_of (hC.require _ _)) fun _ => ?_
      refine hC.before (hC.part_of (hC.require _ _)) fun _ => ?_
      exact hC.closing (hC.block hg) fun body => hC.pure (by simp)
  | false => exact hC.pure rfl

theorem finallyClause : C.reads .tail (Parse.finallyClause g) (Parse.finallyClause g') := by
  refine hC.trailing (hC.accept_continues rfl) fun found => ?_
  cases found with
  | true =>
      refine hC.within_extent (x := .whole) ?_ ⟨by decide, fun _ => rfl⟩
      refine hC.before (hC.part_of (hC.require _ _)) fun _ => ?_
      exact hC.closing (hC.block hg) fun body => hC.pure rfl
  | false => exact hC.pure rfl

end Clauses

section Declarations

include hg

theorem initialValue (isConst : Bool) :
    C.reads .part (Parse.initialValue g isConst) (Parse.initialValue g' isConst) := by
  have hvalue : C.reads .part (do return some (← g.expression)) (do return some (← g'.expression)) :=
    hC.before (hC.part_of (hC.expression hg)) fun e => hC.done rfl
  cases isConst with
  | true => exact hC.before (hC.part_of (hC.consume _ _ _)) fun _ => hvalue
  | false =>
      refine hC.before (hC.accept _) fun found => ?_
      cases found with
      | true => exact hvalue
      | false => exact hC.done rfl

theorem varDeclaration (keyword : Token) (isConst : Bool) :
    C.reads .whole (Parse.varDeclaration g keyword isConst)
      (Parse.varDeclaration g' (C.carry keyword) isConst) :=
  hC.before (hC.part_of (hC.require _ _)) fun name =>
    hC.before (hC.initialValue hg isConst) fun initial =>
      hC.closing (hC.require _ _) fun _ =>
        hC.trailing (hC.spanFrom keyword) fun span => hC.pure (by simp)

theorem functionDeclaration (keyword : Token) :
    C.reads .whole (Parse.functionDeclaration g keyword)
      (Parse.functionDeclaration g' (C.carry keyword)) :=
  hC.before (hC.part_of (hC.require _ _)) fun name =>
    hC.closing (hC.functionRest hg) fun rest =>
      hC.trailing (hC.spanFrom keyword) fun span => hC.pure (by simp)

theorem method : C.reads .whole (Parse.method g) (Parse.method g') :=
  hC.before (hC.part_of (hC.require _ _)) fun name =>
    hC.closing (hC.functionRest hg) fun rest =>
      hC.trailing (hC.spanFrom name) fun span => hC.pure (by simp)

omit hg in
theorem superclass (name : Token) :
    C.reads .part (Parse.superclass name) (Parse.superclass (C.carry name)) := by
  refine hC.before (hC.accept _) fun found => ?_
  cases found with
  | true =>
      refine hC.before (hC.part_of (hC.require _ _)) fun parent => ?_
      exact hC.before (hC.part_of (hC.reportIf _ _ parent)) fun _ => hC.done (by simp)
  | false => exact hC.done rfl

theorem methods (hasSuperclass : Bool) :
    let stop : Parse Bool := do return (← Parse.check .rightBrace) || (← Parse.atEnd)
    C.reads .part
      (Parse.within (Context.enterClass hasSuperclass)
        (budget >>= fun tokens => Parse.manyUntil stop (Parse.method g) tokens []))
      (Parse.within (Context.enterClass hasSuperclass)
        (budget >>= fun tokens => Parse.manyUntil stop (Parse.method g') tokens [])) :=
  hC.within (fun _ _ _ _ => rfl) (hC.manyUntil hC.atClosingBrace
    (hC.within_extent (hC.method hg) ⟨by decide, by decide⟩))

theorem classDeclaration (keyword : Token) :
    C.reads .whole (Parse.classDeclaration g keyword)
      (Parse.classDeclaration g' (C.carry keyword)) := by
  refine hC.before (hC.part_of (hC.require _ _)) fun name => ?_
  refine hC.before (hC.superclass name) fun parent => ?_
  refine hC.before (hC.part_of (hC.require _ _)) fun _ => ?_
  have hsome : (C.carry parent).isSome = parent.isSome := Option.isSome_map
  rw [hsome]
  refine hC.bounded (hC.methods hg parent.isSome) fun methods => ?_
  refine hC.closing (hC.require _ _) fun _ => ?_
  refine hC.trailing (hC.spanFrom keyword) fun span => hC.pure ?_
  cases parent with
  | none => simp
  | some parent => simp [Prod.map]

end Declarations

section Statements

include hg

theorem expressionStatement :
    C.reads .double (Parse.expressionStatement g) (Parse.expressionStatement g') :=
  hC.enclosing (hC.expression hg) fun e =>
    hC.closing (hC.require _ _) fun _ =>
      hC.trailing hC.previous fun last => hC.pure (by simp [hC.merges e.span])

theorem printStatement (keyword : Token) :
    C.reads .whole (Parse.printStatement g keyword) (Parse.printStatement g' (C.carry keyword)) :=
  hC.before (hC.part_of (hC.expression hg)) fun value =>
    hC.closing (hC.require _ _) fun _ =>
      hC.trailing (hC.spanFrom keyword) fun span => hC.pure (by simp)

theorem ifStatement (keyword : Token) :
    C.reads .whole (Parse.ifStatement g keyword) (Parse.ifStatement g' (C.carry keyword)) := by
  refine hC.before (hC.part_of (hC.require _ _)) fun _ => ?_
  refine hC.before (hC.part_of (hC.expression hg)) fun condition => ?_
  refine hC.before (hC.part_of (hC.require _ _)) fun _ => ?_
  refine hC.closing hg.statement fun thenBranch => ?_
  refine hC.trailing (hC.accept_continues rfl) fun found => ?_
  have hrest (elseBranch : Option Stmt) : C.reads .tail
      (do return Stmt.ifElse condition thenBranch elseBranch (← Parse.spanFrom keyword))
      (do
        return Stmt.ifElse (C.carry condition) (C.carry thenBranch) (C.carry elseBranch)
          (← Parse.spanFrom (C.carry keyword))) :=
    hC.trailing (hC.spanFrom keyword) fun span => hC.pure (by simp)
  cases found with
  | true =>
      have helse : C.reads .whole (some <$> g.statement) (some <$> g'.statement) :=
        hC.closing hg.statement fun _ => hC.pure rfl
      exact hC.within_extent (hC.closing helse hrest) ⟨by decide, fun _ => rfl⟩
  | false => exact hrest none

theorem loopBody : C.reads .whole (Parse.loopBody g) (Parse.loopBody g') :=
  hC.within (fun _ _ _ _ => rfl) hg.statement

theorem whileStatement (keyword : Token) :
    C.reads .whole (Parse.whileStatement g keyword)
      (Parse.whileStatement g' (C.carry keyword)) :=
  hC.before (hC.part_of (hC.require _ _)) fun _ =>
    hC.before (hC.part_of (hC.expression hg)) fun condition =>
      hC.before (hC.part_of (hC.require _ _)) fun _ =>
        hC.closing (hC.loopBody hg) fun body =>
          hC.trailing (hC.spanFrom keyword) fun span => hC.pure (by simp)

theorem doWhileStatement (keyword : Token) :
    C.reads .whole (Parse.doWhileStatement g keyword)
      (Parse.doWhileStatement g' (C.carry keyword)) := by
  refine hC.before (hC.part_of (hC.loopBody hg)) fun body => ?_
  refine hC.before (hC.part_of (hC.require _ _)) fun _ => ?_
  refine hC.before (hC.part_of (hC.require _ _)) fun _ => ?_
  refine hC.before (hC.part_of (hC.expression hg)) fun condition => ?_
  refine hC.before (hC.part_of (hC.require _ _)) fun _ => ?_
  refine hC.closing (hC.require _ _) fun _ => ?_
  exact hC.trailing (hC.spanFrom keyword) fun span => hC.pure (by simp)

theorem forInitial : C.reads .part (Parse.forInitial g) (Parse.forInitial g') := by
  refine hC.before (hC.accept _) fun missing => ?_
  cases missing with
  | true => exact hC.done rfl
  | false =>
      refine hC.before (hC.check _) fun declares => ?_
      cases declares with
      | true =>
          refine hC.before (hC.part_of hC.advance) fun keyword => ?_
          exact hC.before (hC.part_of (hC.varDeclaration hg keyword false)) fun s => hC.done rfl
      | false =>
          exact hC.before (hC.part_of (hC.expressionStatement hg)) fun s => hC.done rfl

theorem optionalBefore (kind : TokenKind) :
    C.reads .part (Parse.optionalBefore g kind) (Parse.optionalBefore g' kind) := by
  refine hC.before (hC.check _) fun missing => ?_
  cases missing with
  | true => exact hC.done rfl
  | false => exact hC.before (hC.part_of (hC.expression hg)) fun e => hC.done rfl

theorem forStatement (keyword : Token) :
    C.reads .whole (Parse.forStatement g keyword) (Parse.forStatement g' (C.carry keyword)) := by
  refine hC.before (hC.part_of (hC.require _ _)) fun _ => ?_
  refine hC.before (hC.forInitial hg) fun initial => ?_
  refine hC.before (hC.optionalBefore hg _) fun condition => ?_
  refine hC.before (hC.part_of (hC.require _ _)) fun _ => ?_
  refine hC.before (hC.optionalBefore hg _) fun increment => ?_
  refine hC.before (hC.part_of (hC.require _ _)) fun _ => ?_
  refine hC.closing (hC.loopBody hg) fun body => ?_
  exact hC.trailing (hC.spanFrom keyword) fun span => hC.pure (by simp)

theorem returnStatement (keyword : Token) :
    C.reads .whole (Parse.returnStatement g keyword)
      (Parse.returnStatement g' (C.carry keyword)) :=
  hC.context
    (fun c =>
      hC.before (hC.part_of (hC.reportIf (!c.inFunction) .returnOutsideFunction keyword)) fun _ =>
        hC.before (hC.optionalBefore hg .semicolon) fun value =>
          hC.closing (hC.require _ _) fun _ =>
            hC.trailing (hC.spanFrom keyword) fun span => hC.pure (by simp))
    fun _ _ _ _ => rfl

omit hg in
theorem breakStatement (keyword : Token) :
    C.reads .whole (Parse.breakStatement keyword) (Parse.breakStatement (C.carry keyword)) :=
  hC.context
    (fun c =>
      hC.before (hC.part_of (hC.reportIf (!c.inLoop) .breakOutsideLoop keyword)) fun _ =>
        hC.closing (hC.require _ _) fun _ =>
          hC.trailing (hC.spanFrom keyword) fun span => hC.pure (by simp))
    fun _ _ _ _ => rfl

omit hg in
theorem continueStatement (keyword : Token) :
    C.reads .whole (Parse.continueStatement keyword)
      (Parse.continueStatement (C.carry keyword)) :=
  hC.context
    (fun c =>
      hC.before (hC.part_of (hC.reportIf (!c.inLoop) .continueOutsideLoop keyword)) fun _ =>
        hC.closing (hC.require _ _) fun _ =>
          hC.trailing (hC.spanFrom keyword) fun span => hC.pure (by simp))
    fun _ _ _ _ => rfl

theorem tryStatement (keyword : Token) :
    C.reads .whole (Parse.tryStatement g keyword) (Parse.tryStatement g' (C.carry keyword)) := by
  refine hC.before (hC.part_of (hC.require _ _)) fun _ => ?_
  refine hC.closing (hC.block hg) fun body => ?_
  refine hC.trailing (hC.catchClause hg) fun handler => ?_
  refine hC.trailing (hC.finallyClause hg) fun cleanup => ?_
  have hhandler : (C.carry handler).isNone = handler.isNone := Option.isNone_map
  have hcleanup : (C.carry cleanup).isNone = cleanup.isNone := Option.isNone_map
  rw [hhandler, hcleanup]
  split
  · exact hC.fail _
  · exact hC.trailing (hC.spanFrom keyword) fun span => hC.pure (by simp)

theorem throwStatement (keyword : Token) :
    C.reads .whole (Parse.throwStatement g keyword)
      (Parse.throwStatement g' (C.carry keyword)) :=
  hC.before (hC.part_of (hC.expression hg)) fun value =>
    hC.closing (hC.require _ _) fun _ =>
      hC.trailing (hC.spanFrom keyword) fun span => hC.pure (by simp)

omit hg in
theorem dumpStatement (keyword : Token) :
    C.reads .whole (Parse.dumpStatement keyword) (Parse.dumpStatement (C.carry keyword)) :=
  hC.closing (hC.require _ _) fun _ =>
    hC.trailing (hC.spanFrom keyword) fun span => hC.pure (by simp)

theorem blockStatement (start : Token) :
    C.reads .whole (Parse.blockStatement g start) (Parse.blockStatement g' (C.carry start)) :=
  hC.closing (hC.block hg) fun statements =>
    hC.trailing (hC.spanFrom start) fun span => hC.pure (by simp)

/-- The statements that begin with a keyword begin with it for both grammars. -/
theorem keywordStatement (kind : TokenKind) :
    (keywordStatement? g kind = none ∧ keywordStatement? g' kind = none) ∨
      ∃ read read', keywordStatement? g kind = some read ∧ keywordStatement? g' kind = some read' ∧
        ∀ keyword, C.reads .whole (read keyword) (read' (C.carry keyword)) := by
  cases kind
  case printKeyword => exact .inr ⟨_, _, rfl, rfl, hC.printStatement hg⟩
  case leftBrace => exact .inr ⟨_, _, rfl, rfl, hC.blockStatement hg⟩
  case ifKeyword => exact .inr ⟨_, _, rfl, rfl, hC.ifStatement hg⟩
  case whileKeyword => exact .inr ⟨_, _, rfl, rfl, hC.whileStatement hg⟩
  case doKeyword => exact .inr ⟨_, _, rfl, rfl, hC.doWhileStatement hg⟩
  case forKeyword => exact .inr ⟨_, _, rfl, rfl, hC.forStatement hg⟩
  case returnKeyword => exact .inr ⟨_, _, rfl, rfl, hC.returnStatement hg⟩
  case breakKeyword => exact .inr ⟨_, _, rfl, rfl, hC.breakStatement⟩
  case continueKeyword => exact .inr ⟨_, _, rfl, rfl, hC.continueStatement⟩
  case tryKeyword => exact .inr ⟨_, _, rfl, rfl, hC.tryStatement hg⟩
  case throwKeyword => exact .inr ⟨_, _, rfl, rfl, hC.throwStatement hg⟩
  case dumpKeyword => exact .inr ⟨_, _, rfl, rfl, hC.dumpStatement⟩
  all_goals exact .inl ⟨rfl, rfl⟩

theorem statement : C.reads .double (Parse.statement g) (Parse.statement g') := by
  refine hC.nested (hC.before hC.peek fun token => ?_)
  dsimp only [carry, Token.kind_move]
  rcases hC.keywordStatement hg token.kind with ⟨hnone, hnone'⟩ | ⟨read, read', hread, hread', h⟩
  · rw [hnone, hnone']
    exact hC.expressionStatement hg
  · rw [hread, hread']
    exact hC.enclosing hC.advance h

theorem declarationBody :
    C.reads .double (Parse.declarationBody g) (Parse.declarationBody g') := by
  refine hC.before hC.peek fun token => ?_
  dsimp only [carry, Token.kind_move]
  split
  · exact hC.enclosing hC.advance fun keyword => hC.varDeclaration hg keyword false
  · exact hC.enclosing hC.advance fun keyword => hC.varDeclaration hg keyword true
  · refine hC.checkNext .identifier (.inr rfl) fun named => ?_
    cases named with
    | true => exact hC.enclosing hC.advance fun keyword => hC.functionDeclaration hg keyword
    | false => exact hC.statement hg
  · exact hC.enclosing hC.advance fun keyword => hC.classDeclaration hg keyword
  · exact hC.statement hg

theorem declaration : C.reads .whole (Parse.declaration g) (Parse.declaration g') :=
  hC.recovering (hC.within_extent (hC.declarationBody hg) ⟨by decide, fun _ => rfl⟩)

end Statements

section Programs

/-- Every level of the grammar is related to itself. -/
theorem ofDepth (depth : Nat) : (Grammar.ofDepth depth).Comparable C (Grammar.ofDepth depth) := by
  induction depth with
  | zero => exact ⟨hC.tooDeep, hC.tooDeep, hC.tooDeep, hC.tooDeep, hC.tooDeep⟩
  | succ depth ih =>
      exact ⟨hC.assignment ih, hC.ternary ih, hC.unary ih,
        hC.within_extent (hC.statement ih) ⟨by decide, fun _ => rfl⟩, hC.declaration ih⟩

theorem grammar : Parse.grammar.Comparable C Parse.grammar :=
  hC.ofDepth _

/-- The statements up to the end of the input. -/
theorem statements {g g' : Grammar} (hg : g.Comparable C g') :
    C.reads .part
      (do
        let read ← Parse.manyUntil Parse.atEnd g.declaration (← budget) []
        return read.filterMap id)
      (do
        let read ← Parse.manyUntil Parse.atEnd g'.declaration (← budget) []
        return read.filterMap id) := by
  have hitem := hC.within_extent hg.declaration (y := .item) ⟨by decide, by decide⟩
  refine hC.bounded (hC.manyUntil hC.atEnd hitem) fun read => hC.done ?_
  simp [List.filterMap_map, List.map_filterMap]

theorem program : C.reads .part Parse.program Parse.program :=
  hC.statements hC.grammar

end Programs

end Comparison.Lawful

end Lox.Parse
