import Lox.Proofs.Parse.Comparison

/-!
# Readers of expressions under a comparison

If a comparison relates the readers of a `Grammar` to those of another, it also relates the readers of
expressions that are built on them. A reader that is given a token or an expression is related to
the one that is given the relocated one.
-/

namespace Lox.Parse

/-- The comparison relates the readers of one grammar to those of another. -/
structure Grammar.Comparable (C : Comparison) (g g' : Grammar) : Prop where
  assignment : C.reads .item g.assignment g'.assignment
  ternary : C.reads .item g.ternary g'.ternary
  unary : C.reads .item g.unary g'.unary
  statement : C.reads .whole g.statement g'.statement
  declaration : C.reads .whole g.declaration g'.declaration

theorem assignmentTo?_relocate
    (r : Relocation)
    (target value : Expr)
    (span : Span) :
    assignmentTo? (target.relocate r) (value.relocate r) (r.span span) =
      (assignmentTo? target value span).map (Expr.relocate r) := by
  cases target <;> rfl

namespace Comparison.Lawful

variable {C : Comparison} (hC : C.Lawful) {g g' : Grammar} (hg : g.Comparable C g')
include hC

section Grammar

theorem atClosingBrace :
    C.reads .part (do return (← Parse.check .rightBrace) || (← Parse.atEnd))
      (do return (← Parse.check .rightBrace) || (← Parse.atEnd)) :=
  hC.before (hC.check _) fun _ => hC.before hC.atEnd fun _ => hC.done rfl

include hg

theorem expression : C.reads .item g.expression g'.expression :=
  hC.nested hg.assignment

theorem block : C.reads .whole g.block g'.block := by
  have hitem := hC.within_extent hg.declaration (y := .item) ⟨by decide, by decide⟩
  refine hC.bounded (hC.manyUntil hC.atClosingBrace hitem) fun read => ?_
  refine hC.closing (hC.require _ _) fun _ => hC.pure ?_
  simp [List.filterMap_map, List.map_filterMap]

theorem functionBody : C.reads .whole g.functionBody g'.functionBody :=
  hC.within (fun _ _ _ _ => rfl) (hC.nested (hC.block hg))

theorem functionRest : C.reads .whole g.functionRest g'.functionRest :=
  hC.before (hC.part_of (hC.require _ _)) fun _ =>
    hC.before hC.parameters fun params =>
      hC.before (hC.part_of (hC.require _ _)) fun _ =>
        hC.before (hC.part_of (hC.require _ _)) fun _ =>
          hC.closing (hC.functionBody hg) fun body => hC.pure (by simp)

end Grammar

section Primary

include hg

theorem arrowFunction : C.reads .item (Parse.arrowFunction g) (Parse.arrowFunction g') := by
  refine hC.opening hC.advance fun start => hC.before hC.parameters fun params => ?_
  refine hC.before (hC.part_of (hC.require _ _)) fun _ => ?_
  refine hC.before (hC.part_of (hC.require _ _)) fun _ => ?_
  refine hC.before (hC.accept _) fun braced => ?_
  have hrest (body : List Stmt) : C.reads .part
      (do return Expr.function params body (← Parse.spanFrom start))
      (do return Expr.function (C.carry params) (C.carry body) (← Parse.spanFrom (C.carry start))) :=
    hC.before (hC.part_of (hC.spanFrom start)) fun span => hC.done (by simp)
  cases braced with
  | true => exact hC.before (hC.part_of (hC.functionBody hg)) fun body => hrest body
  | false =>
      refine hC.before (hC.part_of (hC.nestedArrow hg.assignment)) fun value => ?_
      have h := hrest [.returnValue (some value) value.span]
      simpa using h

omit hg in
theorem superExpression (keyword : Token) :
    C.reads .part (Parse.superExpression keyword) (Parse.superExpression (C.carry keyword)) := by
  have hrest : C.reads .part
      (do
        let _ ← Parse.require .dot "'.' after 'super'"
        let method ← Parse.require .identifier "superclass method name"
        return Expr.super method.lexeme (← Parse.spanFrom keyword))
      (do
        let _ ← Parse.require .dot "'.' after 'super'"
        let method ← Parse.require .identifier "superclass method name"
        return Expr.super method.lexeme (← Parse.spanFrom (C.carry keyword))) := by
    refine hC.before (hC.part_of (hC.require _ _)) fun _ => ?_
    refine hC.before (hC.part_of (hC.require _ _)) fun method => ?_
    exact hC.before (hC.part_of (hC.spanFrom keyword)) fun span => hC.done rfl
  refine hC.context (fun c => ?_) fun _ _ _ _ => rfl
  split
  · exact hC.before (hC.report ⟨.misplaced .superOutsideClass, keyword⟩) fun _ => hrest
  · exact hC.before (hC.report ⟨.misplaced .superWithoutSuperclass, keyword⟩) fun _ => hrest
  · exact hrest

theorem mapKey : C.reads .item (Parse.mapKey g) (Parse.mapKey g') := by
  refine hC.before (hC.check _) fun named => ?_
  have hname : C.reads .item
      (do let token ← Parse.advance; return Expr.literal (.string token.lexeme) token.span)
      (do let token ← Parse.advance; return Expr.literal (.string token.lexeme) token.span) :=
    hC.opening hC.advance fun token => hC.done (by simp)
  cases named with
  | false => exact hC.expression hg
  | true =>
      refine hC.checkNext .colon (.inl rfl) fun colon => ?_
      cases colon with
      | true => exact hname
      | false => exact hC.expression hg

theorem mapEntry : C.reads .item (Parse.mapEntry g) (Parse.mapEntry g') :=
  hC.opening (hC.mapKey hg) fun key =>
    hC.before (hC.part_of (hC.require _ _)) fun _ =>
      hC.before (hC.part_of (hC.expression hg)) fun value => hC.done (by simp)

theorem listLiteral (start : Token) :
    C.reads .part (Parse.listLiteral g start) (Parse.listLiteral g' (C.carry start)) :=
  hC.bounded (hC.listBefore _ (hC.expression hg)) fun elements =>
    hC.before (hC.part_of (hC.require _ _)) fun _ =>
      hC.before (hC.part_of (hC.spanFrom start)) fun span => hC.done (by simp)

theorem mapLiteral (start : Token) :
    C.reads .part (Parse.mapLiteral g start) (Parse.mapLiteral g' (C.carry start)) :=
  hC.bounded (hC.listBefore _ (hC.mapEntry hg)) fun entries =>
    hC.before (hC.part_of (hC.require _ _)) fun _ =>
      hC.before (hC.part_of (hC.spanFrom start)) fun span => hC.done (by simp)

theorem parenthesisedPrimary : C.reads .item
    (do if Parse.startsArrow true ((← remaining).drop 1) then Parse.arrowFunction g else grouping g)
    (do
      if Parse.startsArrow true ((← remaining).drop 1) then Parse.arrowFunction g'
      else grouping g') := by
  have hinside : C.reads .item (Parse.advance >>= fun _ => g.expression)
      (Parse.advance >>= fun _ => g'.expression) :=
    hC.opening hC.advance fun _ => hC.part_of (hC.expression hg)
  have h := hC.startsArrow "')' after expression" (hC.arrowFunction hg) hinside
  simp only [bind_assoc] at h
  exact h

theorem primary : C.reads .item (Parse.primary g) (Parse.primary g') := by
  refine hC.before hC.peek fun token => ?_
  have hliteral (value : Literal) : C.reads .item
      (do let _ ← Parse.advance; return Expr.literal value token.span)
      (do let _ ← Parse.advance; return Expr.literal value (C.carry token).span) :=
    hC.opening hC.advance fun _ => hC.done (by simp)
  dsimp only [carry, Token.kind_move]
  split
  · exact hliteral _
  · exact hliteral _
  · exact hliteral _
  · exact hliteral _
  · exact hliteral _
  · refine hC.opening hC.advance fun _ => hC.context (fun c => ?_) fun _ _ _ _ => rfl
    exact hC.before (hC.part_of (hC.reportIf _ _ token)) fun _ => hC.done (by simp)
  · exact hC.opening hC.advance fun _ => hC.superExpression token
  · exact hC.opening hC.advance fun _ => hC.done (by simp)
  · refine hC.opening hC.advance fun _ => hC.before (hC.part_of (hC.functionRest hg)) fun rest => ?_
    exact hC.before (hC.part_of (hC.spanFrom token)) fun span => hC.done (by simp)
  · exact hC.parenthesisedPrimary hg
  · exact hC.opening hC.advance fun _ => hC.listLiteral hg token
  · exact hC.opening hC.advance fun _ => hC.mapLiteral hg token
  · exact hC.fail _

end Primary

section Operators

include hg

theorem suffix (e : Expr) : C.reads .item (Parse.suffix g e) (Parse.suffix g' (C.carry e)) := by
  refine hC.before hC.peek fun token => ?_
  dsimp only [carry, Token.kind_move]
  split
  · refine hC.opening hC.advance fun _ => ?_
    refine hC.before (hC.parenthesised _ (hC.expression hg)) fun arguments => ?_
    refine hC.before (hC.part_of (hC.require _ _)) fun paren => hC.done ?_
    simp [hC.merges e.span]
  · refine hC.opening hC.advance fun _ => ?_
    refine hC.before (hC.part_of (hC.require _ _)) fun name => hC.done ?_
    simp [hC.merges e.span]
  · refine hC.opening hC.advance fun _ => ?_
    refine hC.before (hC.part_of (hC.expression hg)) fun index => ?_
    refine hC.before (hC.part_of (hC.require _ _)) fun bracket => hC.done ?_
    simp [hC.merges e.span]
  · exact hC.fail _

theorem call : C.reads .item (Parse.call g) (Parse.call g') := by
  refine hC.opening (hC.primary hg) fun e => ?_
  simp only [suffixes_eq]
  refine hC.repeatWhile (hC.before hC.peek fun _ => hC.done rfl) (fun e => ?_) fun _ => rfl
  exact hC.opening (hC.suffix hg e) fun next => hC.done (by simp)

theorem power : C.reads .item (Parse.power g) (Parse.power g') := by
  refine hC.opening (hC.call hg) fun base => hC.before (hC.accept _) fun raised => ?_
  cases raised with
  | true =>
      refine hC.before (hC.part_of (hC.nested hg.unary)) fun exponent => hC.done ?_
      simp [hC.merges base.span]
  | false => exact hC.done rfl

theorem unary : C.reads .item (Parse.unary g) (Parse.unary g') := by
  refine hC.before hC.peek fun token => ?_
  dsimp only [carry, Token.kind_move]
  split
  · refine hC.opening hC.advance fun token => ?_
    refine hC.before (hC.part_of (hC.nested hg.unary)) fun operand => hC.done ?_
    simp [hC.merges token.span]
  · exact hC.power hg

omit hg in
/-- A level of operators, each of which joins relocated operands to a relocated expression. -/
theorem leftAssociative
    {operand operand' : Parse Expr}
    {join? : TokenKind → Option Join}
    (hoperand : C.reads .item operand operand')
    (hjoin : ∀ {kind join}, join? kind = some join → ∀ left right span,
      (join left right span).relocate C.relocation =
        join (left.relocate C.relocation) (right.relocate C.relocation) (C.relocation.span span)) :
    C.reads .item (Parse.leftAssociative operand join?)
      (Parse.leftAssociative operand' join?) := by
  refine hC.opening hoperand fun first => ?_
  simp only [chain_eq]
  refine hC.repeatWhile (hC.before hC.peek fun _ => hC.done rfl) (fun left => ?_) fun _ => rfl
  refine hC.before hC.peek fun token => ?_
  dsimp only [carry, Token.kind_move]
  split
  · next join hfound =>
      refine hC.opening hC.advance fun _ => hC.before (hC.part_of hoperand) fun right => ?_
      exact hC.done (by simp [hjoin hfound, hC.merges left.span])
  · exact hC.fail _

theorem factor : C.reads .item (Parse.factor g) (Parse.factor g') :=
  hC.leftAssociative (hC.unary hg) fun {kind _} h => by
    cases kind <;> cases h <;> exact fun _ _ _ => rfl

theorem term : C.reads .item (Parse.term g) (Parse.term g') :=
  hC.leftAssociative (hC.factor hg) fun {kind _} h => by
    cases kind <;> cases h <;> exact fun _ _ _ => rfl

theorem comparison : C.reads .item (Parse.comparison g) (Parse.comparison g') :=
  hC.leftAssociative (hC.term hg) fun {kind _} h => by
    cases kind <;> cases h <;> exact fun _ _ _ => rfl

theorem equality : C.reads .item (Parse.equality g) (Parse.equality g') :=
  hC.leftAssociative (hC.comparison hg) fun {kind _} h => by
    cases kind <;> cases h <;> exact fun _ _ _ => rfl

theorem logicalAnd : C.reads .item (Parse.logicalAnd g) (Parse.logicalAnd g') :=
  hC.leftAssociative (hC.equality hg) fun {kind _} h => by
    cases kind <;> cases h
    exact fun _ _ _ => rfl

theorem logicalOr : C.reads .item (Parse.logicalOr g) (Parse.logicalOr g') :=
  hC.leftAssociative (hC.logicalAnd hg) fun {kind _} h => by
    cases kind <;> cases h
    exact fun _ _ _ => rfl

theorem ternary : C.reads .item (Parse.ternary g) (Parse.ternary g') := by
  refine hC.opening (hC.logicalOr hg) fun condition => hC.before (hC.accept _) fun chosen => ?_
  cases chosen with
  | true =>
      refine hC.before (hC.part_of (hC.expression hg)) fun thenBranch => ?_
      refine hC.before (hC.part_of (hC.require _ _)) fun _ => ?_
      refine hC.before (hC.part_of (hC.nested hg.ternary)) fun elseBranch => hC.done ?_
      simp [hC.merges condition.span]
  | false => exact hC.done rfl

theorem assignment : C.reads .item (Parse.assignment g) (Parse.assignment g') := by
  refine hC.opening (hC.ternary hg) fun target => hC.before (hC.check _) fun assigned => ?_
  cases assigned with
  | false => exact hC.done rfl
  | true =>
      refine hC.before (hC.part_of hC.advance) fun equals => ?_
      refine hC.before (hC.part_of (hC.nested hg.assignment)) fun value => ?_
      have hassigned := assignmentTo?_relocate C.relocation target value
        (target.span.merge value.span)
      rw [hC.merges] at hassigned
      simp only [carry, Expr.move_eq, Expr.span_relocate, hassigned]
      cases assignmentTo? target value (target.span.merge value.span) with
      | some e => exact hC.done rfl
      | none =>
          exact hC.before (hC.report ⟨.invalidTarget target.span, equals⟩) fun _ => hC.done rfl

end Operators

end Comparison.Lawful

end Lox.Parse
