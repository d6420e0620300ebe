import Lox.Proofs.Descent.Looping

/-!
# Every descent tracks its reader

The readers of `Lox.Parse` one after the other, tracked by the descents of the same names. Readers of
expressions call others one level of nesting further in, so with calls that are tracked at so many
levels they are tracked at one level more; statements count a level themselves.
-/

namespace Lox.Descent

/-- What descents may call tracks what readers may call, at so many levels of nesting. -/
structure Calls.Track (levels : Nat) (g : Calls) (h : Parse.Grammar) : Prop where
  assignment : Tracks levels g.turns .strict g.assignment h.assignment
  ternary : Tracks levels g.turns .strict g.ternary h.ternary
  unary : Tracks levels g.turns .strict g.unary h.unary
  statement : Tracks levels g.turns .strict g.statement h.statement
  declaration : Tracks levels g.turns .onward g.declaration h.declaration

namespace Tracks

variable {levels : Nat} {g : Calls} {h : Parse.Grammar}

section Nesting

theorem expression (hg : g.Track levels h) :
    Tracks (levels + 1) g.turns .strict g.expression h.expression :=
  nested hg.assignment

/-- A block ends at a brace or at the end of the input. -/
theorem stop {turns : Nat} :
    Tracks levels turns .any (do return (← Descent.check .rightBrace) || (← Descent.atEnd))
      (do return (← Parse.check .rightBrace) || (← Parse.atEnd)) :=
  first (check .rightBrace) fun _ => first atEnd fun _ => pure _

/-- Before the end of a block is not the end of the input. -/
theorem not_last_of_stop
    {T : Setting} {σ τ : State}
    (hstop : (do return (← Descent.check .rightBrace) || (← Descent.atEnd) : Descent Bool) T σ
      = .returned false τ) :
    ¬T.Last τ.current := by
  obtain ⟨closed, υ, -, hrest⟩ := bind_eq_returned.mp hstop
  obtain ⟨ended, φ, hended, hsame⟩ := bind_eq_returned.mp hrest
  change Outcome.returned (closed || ended) φ = .returned false τ at hsame
  injection hsame with hneither hsame
  injection hended with hended hφ
  subst hsame hφ
  intro hlast
  have hinside : υ.current < T.tokens.length := Nat.lt_of_succ_le (Nat.le_of_eq hlast)
  have hkind := (Setting.kind_tokenAt_iff hinside).mpr hlast
  simp_all

theorem block (hg : g.Track levels h) : Tracks levels g.turns .strict g.block h.block := by
  refine bounded (manyUntil stop fun T τ es hτ hstop => ?_) fun _ =>
    first (require .rightBrace _) fun _ => pure _
  obtain ⟨υ, hυ⟩ := hstop
  exact (hg.declaration T τ es hτ).strict (not_last_of_stop hυ)

theorem functionBody (hg : g.Track levels h) :
    Tracks (levels + 1) g.turns .strict g.functionBody h.functionBody :=
  inFunction (nested (block hg))

theorem functionRest (hg : g.Track levels h) :
    Tracks (levels + 1) g.turns .strict g.functionRest h.functionRest :=
  first (require .leftParen _) fun _ => next parameters fun _ =>
    next (require .rightParen _).any fun _ => next (require .leftBrace _).any fun _ =>
      first (functionBody hg).any fun _ => pure _

end Nesting

section Primary

theorem arrowFunction (hg : g.Track levels h) :
    Tracks (levels + 1) g.turns .onward (arrowFunction g) (Parse.arrowFunction h) := by
  refine first advance fun start => next parameters fun params => ?_
  refine next (require .rightParen _).any fun _ => next (require .arrow _).any fun _ => ?_
  refine next (accept .leftBrace) fun braced => ?_
  have hrest (body : List Stmt) : Tracks (levels + 1) g.turns .any
      (do return Expr.function params body (← Descent.spanFrom start))
      (do return Expr.function params body (← Parse.spanFrom start)) :=
    first (spanFrom start) fun _ => pure _
  cases braced with
  | true => exact first (functionBody hg).any hrest
  | false =>
      exact first (nestedArrow hg.assignment).any fun value =>
        hrest [.returnValue (some value) value.span]

theorem superExpression {turns : Nat} (keyword : Token) :
    Tracks levels turns .any (superExpression keyword) (Parse.superExpression keyword) := by
  have hrest : Tracks levels turns .any
      (do
        let _ ← Descent.require .dot "'.' after 'super'"
        let method ← Descent.require .identifier "superclass method name"
        return Expr.super method.lexeme (← Descent.spanFrom keyword))
      (do
        let _ ← Parse.require .dot "'.' after 'super'"
        let method ← Parse.require .identifier "superclass method name"
        return Expr.super method.lexeme (← Parse.spanFrom keyword)) :=
    next (require .dot _).any fun _ => next (require .identifier _).any fun _ =>
      first (spanFrom keyword) fun _ => pure _
  refine counters fun k T => ?_
  unfold Setting.context
  split
  · next hstack =>
      rw [hstack]
      exact next (reportIf true .superOutsideClass keyword) fun _ => hrest
  · next hstack =>
      rw [hstack]
      exact next (reportIf true .superWithoutSuperclass keyword) fun _ => hrest
  · next hstack =>
      rw [hstack]
      exact hrest

theorem mapKey (hg : g.Track levels h) :
    Tracks (levels + 1) g.turns .strict (mapKey g) (Parse.mapKey h) := by
  refine checkThen .identifier ?_ (expression hg)
  refine next (checkNext (by decide)) fun colon => ?_
  cases colon with
  | true => exact first advance fun _ => pure _
  | false => exact (expression hg).onward

theorem mapEntry (hg : g.Track levels h) :
    Tracks (levels + 1) g.turns .strict (mapEntry g) (Parse.mapEntry h) :=
  first (mapKey hg) fun _ => next (require .colon _).any fun _ =>
    first (expression hg).any fun _ => pure _

theorem listLiteral (hg : g.Track levels h) (start : Token) :
    Tracks (levels + 1) g.turns .any (listLiteral g start) (Parse.listLiteral h start) := by
  exact bounded (listBefore .rightBracket (expression hg)) fun _ =>
    next (require .rightBracket _).any fun _ => first (spanFrom start) fun _ => pure _

theorem mapLiteral (hg : g.Track levels h) (start : Token) :
    Tracks (levels + 1) g.turns .any (mapLiteral g start) (Parse.mapLiteral h start) := by
  exact bounded (listBefore .rightBrace (mapEntry hg)) fun _ =>
    next (require .rightBrace _).any fun _ => first (spanFrom start) fun _ => pure _

theorem grouping (hg : g.Track levels h) :
    Tracks (levels + 1) g.turns .onward (grouping g) (Parse.grouping h) :=
  first advance fun _ => next (expression hg).any fun _ =>
    first (require .rightParen _).any fun _ => pure _

theorem primary (hg : g.Track levels h) :
    Tracks (levels + 1) g.turns .strict (primary g) (Parse.primary h) := by
  refine peek (fun token _ => ?_) fun token hend => ?_
  · have hliteral (value : Literal) : Tracks (levels + 1) g.turns .onward
        (do let _ ← Descent.advance; return Expr.literal value token.span)
        (do let _ ← Parse.advance; return Expr.literal value token.span) :=
      first advance fun _ => pure _
    cases token.kind with
    | trueKeyword => exact hliteral _
    | falseKeyword => exact hliteral _
    | nilKeyword => exact hliteral _
    | number => exact hliteral _
    | string => exact hliteral _
    | thisKeyword =>
        refine first advance fun _ => counters fun k T => ?_
        have hmisplaced : (T.context k).classHasSuperclass.isNone = k.classStack.isEmpty := by
          cases hstack : k.classStack <;> simp [Setting.context, hstack]
        rw [hmisplaced]
        exact first (reportIf _ _ token) fun _ => pure _
    | superKeyword => exact first advance fun _ => superExpression token
    | identifier => exact first advance fun _ => pure _
    | funKeyword =>
        exact first advance fun _ => next (functionRest hg).any fun _ =>
          first (spanFrom token) fun _ => pure _
    | leftParen =>
        refine startsArrow (q := fun b => if b then Parse.arrowFunction h else Parse.grouping h)
          fun arrow => ?_
        cases arrow with
        | true => exact arrowFunction hg
        | false => exact grouping hg
    | leftBracket => exact first advance fun _ => listLiteral hg token
    | leftBrace => exact first advance fun _ => mapLiteral hg token
    | _ => exact fail rfl
  · simp only [hend]
    exact fail rfl

end Primary

section Operators

theorem suffix (hg : g.Track levels h) (e : Expr) :
    Tracks (levels + 1) g.turns .strict (suffix g e) (Parse.suffix h e) := by
  refine peek (fun token _ => ?_) fun token hend => ?_
  · cases token.kind with
    | leftParen =>
        exact first advance fun _ => next (parenthesised .arguments (expression hg)) fun _ =>
          next (require .rightParen _).any fun _ => pure _
    | dot => exact first advance fun _ => next (require .identifier _).any fun _ => pure _
    | leftBracket =>
        exact first advance fun _ => next (expression hg).any fun _ =>
          next (require .rightBracket _).any fun _ => pure _
    | _ => exact fail rfl
  · simp only [hend]
    exact fail rfl

theorem call (hg : g.Track levels h) :
    Tracks (levels + 1) g.turns .strict (call g) (Parse.call h) := by
  refine first (primary hg) fun e => ?_
  simp only [Parse.suffixes_eq]
  refine repeatWhile (next peekToken fun _ => pure _) (takesTurns fun e => ?_) e
  exact first (suffix hg e) fun _ => pure _

theorem power (hg : g.Track levels h) :
    Tracks (levels + 1) g.turns .strict (power g) (Parse.power h) := by
  refine first (call hg) fun base => next (accept .power) fun raised => ?_
  cases raised with
  | true => exact next (nested hg.unary).any fun _ => pure _
  | false => exact pure _

theorem unary (hg : g.Track levels h) :
    Tracks (levels + 1) g.turns .strict (unary g) (Parse.unary h) := by
  refine peek (fun token _ => ?_) fun token hend => ?_
  · cases Parse.unaryOp? token.kind with
    | some op => exact first advance fun _ => next (nested hg.unary).any fun _ => pure _
    | none => exact (power hg).onward
  · simp only [hend]
    exact power hg

theorem leftAssociative
    {turns : Nat}
    {operand : Descent Expr} {operand' : Parse Expr}
    (hoperand : Tracks levels turns .strict operand operand')
    (join? : TokenKind → Option Parse.Join)
    (hjoin : join? .endOfInput = none) :
    Tracks levels turns .strict (leftAssociative turns operand join?)
      (Parse.leftAssociative operand' join?) := by
  refine first hoperand fun e => ?_
  simp only [Parse.chain_eq]
  refine repeatWhile (next peekToken fun _ => pure _) (takesTurns fun left => ?_) e
  refine peek (fun token _ => ?_) fun token hend => ?_
  · cases join? token.kind with
    | some join => exact first advance fun _ => next hoperand.any fun _ => pure _
    | none => exact fail rfl
  · simp only [hend, hjoin]
    exact fail rfl

theorem logicalOr (hg : g.Track levels h) :
    Tracks (levels + 1) g.turns .strict (logicalOr g) (Parse.logicalOr h) := by
  have hfactor := leftAssociative (unary hg) Parse.factorOp? rfl
  have hterm := leftAssociative hfactor Parse.termOp? rfl
  have hcomparison := leftAssociative hterm Parse.comparisonOp? rfl
  have hequality := leftAssociative hcomparison Parse.equalityOp? rfl
  exact leftAssociative (leftAssociative hequality Parse.andOp? rfl) Parse.orOp? rfl

theorem ternary (hg : g.Track levels h) :
    Tracks (levels + 1) g.turns .strict (ternary g) (Parse.ternary h) := by
  refine first (logicalOr hg) fun condition => next (accept .question) fun chosen => ?_
  cases chosen with
  | true =>
      exact next (expression hg).any fun _ => next (require .colon _).any fun _ =>
        next (nested hg.ternary).any fun _ => pure _
  | false => exact pure _

theorem assignment (hg : g.Track levels h) :
    Tracks (levels + 1) g.turns .strict (assignment g) (Parse.assignment h) := by
  refine first (ternary hg) fun target => next (check .assign) fun assigned => ?_
  cases assigned with
  | true =>
      refine next advance.any fun equals => next (nested hg.assignment).any fun value => ?_
      cases Parse.assignmentTo? target value (target.span.merge value.span) with
      | some e => exact pure _
      | none => exact next (report rfl) fun _ => pure _
  | false => exact pure _

end Operators

section Declarations

theorem initialValue (hg : g.Track levels h) (isConst : Bool) :
    Tracks (levels + 1) g.turns .any (initialValue g isConst) (Parse.initialValue h isConst) := by
  unfold Descent.initialValue Parse.initialValue
  split
  · exact next (consume .assign _ _).any fun _ => first (expression hg).any fun _ => pure _
  · refine next (accept .assign) fun assigned => ?_
    cases assigned with
    | true => exact first (expression hg).any fun _ => pure _
    | false => exact pure _

theorem varDeclaration (hg : g.Track levels h) (keyword : Token) (isConst : Bool) :
    Tracks (levels + 1) g.turns .any (varDeclaration g keyword isConst)
      (Parse.varDeclaration h keyword isConst) :=
  next (require .identifier _).any fun _ => next (initialValue hg isConst) fun _ =>
    next (require .semicolon _).any fun _ => first (spanFrom keyword) fun _ => pure _

theorem functionDeclaration (hg : g.Track levels h) (keyword : Token) :
    Tracks (levels + 1) g.turns .any (functionDeclaration g keyword)
      (Parse.functionDeclaration h keyword) :=
  next (require .identifier _).any fun _ => next (functionRest hg).any fun _ =>
    first (spanFrom keyword) fun _ => pure _

theorem method (hg : g.Track levels h) :
    Tracks (levels + 1) g.turns .strict (method g) (Parse.method h) :=
  first (require .identifier _) fun name => next (functionRest hg).any fun _ =>
    first (spanFrom name) fun _ => pure _

theorem superclass {turns : Nat} (name : Token) :
    Tracks levels turns .any (superclass name) (Parse.superclass name) := by
  refine next (accept .less) fun inherits => ?_
  cases inherits with
  | true =>
      exact next (require .identifier _).any fun parent =>
        next (reportIf _ _ parent) fun _ => pure _
  | false => exact pure _

theorem classDeclaration (hg : g.Track levels h) (keyword : Token) :
    Tracks (levels + 1) g.turns .any (classDeclaration g keyword)
      (Parse.classDeclaration h keyword) := by
  refine next (require .identifier _).any fun name => next (superclass name) fun parent => ?_
  refine next (require .leftBrace _).any fun _ => ?_
  have hmethods := inClass parent.isSome (manyUntil_of_strict stop (method hg))
  refine bounded (r := fun tokens => Parse.within (Parse.Context.enterClass parent.isSome)
    (Parse.manyUntil _ (Parse.method h) tokens [])) hmethods fun methods => ?_
  exact next (require .rightBrace _).any fun _ => first (spanFrom keyword) fun _ => pure _

end Declarations

section Statements

theorem lower {turns : Nat} {pace : Pace} {α : Type} {m : Descent α} {p : Parse α}
    (hp : Tracks (levels + 1) turns pace m p) :
    Tracks levels turns pace m p :=
  hp.fewer (Nat.le_succ levels)

/-- A level further in, an expression is read for its own sake. -/
theorem innerExpression (hg : g.Track levels h) :
    Tracks levels g.turns .any g.expression h.expression :=
  (expression hg).any.lower

theorem expressionStatement (hg : g.Track levels h) :
    Tracks levels g.turns .strict (expressionStatement g) (Parse.expressionStatement h) :=
  first (expression hg).lower fun _ => next (require .semicolon _).any fun _ =>
    first previous fun _ => pure _

theorem printStatement (hg : g.Track levels h) (keyword : Token) :
    Tracks levels g.turns .any (printStatement g keyword) (Parse.printStatement h keyword) :=
  next (innerExpression hg) fun _ => next (require .semicolon _).any fun _ =>
    first (spanFrom keyword) fun _ => pure _

theorem ifStatement (hg : g.Track levels h) (keyword : Token) :
    Tracks levels g.turns .any (ifStatement g keyword) (Parse.ifStatement h keyword) := by
  refine next (require .leftParen _).any fun _ => next (innerExpression hg) fun condition => ?_
  refine next (require .rightParen _).any fun _ => next hg.statement.any fun thenBranch => ?_
  refine next (accept .elseKeyword) fun otherwise => ?_
  have hrest (elseBranch : Option Stmt) : Tracks levels g.turns .any
      (do return Stmt.ifElse condition thenBranch elseBranch (← Descent.spanFrom keyword))
      (do return Stmt.ifElse condition thenBranch elseBranch (← Parse.spanFrom keyword)) :=
    first (spanFrom keyword) fun _ => pure _
  cases otherwise with
  | true => exact next (first hg.statement.any fun _ => pure _) hrest
  | false => exact hrest none

theorem loopBody (hg : g.Track levels h) :
    Tracks levels g.turns .any (loopBody g) (Parse.loopBody h) :=
  (inLoop hg.statement).any

theorem whileStatement (hg : g.Track levels h) (keyword : Token) :
    Tracks levels g.turns .any (whileStatement g keyword) (Parse.whileStatement h keyword) :=
  next (require .leftParen _).any fun _ => next (innerExpression hg) fun _ =>
    next (require .rightParen _).any fun _ => next (loopBody hg) fun _ =>
      first (spanFrom keyword) fun _ => pure _

theorem doWhileStatement (hg : g.Track levels h) (keyword : Token) :
    Tracks levels g.turns .any (doWhileStatement g keyword) (Parse.doWhileStatement h keyword) :=
  next (loopBody hg) fun _ => next (require .whileKeyword _).any fun _ =>
    next (require .leftParen _).any fun _ => next (innerExpression hg) fun _ =>
      next (require .rightParen _).any fun _ => next (require .semicolon _).any fun _ =>
        first (spanFrom keyword) fun _ => pure _

theorem forInitial (hg : g.Track levels h) :
    Tracks levels g.turns .any (forInitial g) (Parse.forInitial h) := by
  refine next (accept .semicolon) fun absent => ?_
  cases absent with
  | true => exact pure _
  | false =>
      refine next (check .varKeyword) fun declared => ?_
      cases declared with
      | true =>
          exact next advance.any fun keyword =>
            first (varDeclaration hg keyword false).lower fun _ => pure _
      | false => exact first (expressionStatement hg).any fun _ => pure _

theorem optionalBefore (hg : g.Track levels h) (kind : TokenKind) :
    Tracks levels g.turns .any (optionalBefore g kind) (Parse.optionalBefore h kind) := by
  refine next (check kind) fun absent => ?_
  cases absent with
  | true => exact pure _
  | false => exact first (innerExpression hg) fun _ => pure _

theorem forStatement (hg : g.Track levels h) (keyword : Token) :
    Tracks levels g.turns .any (forStatement g keyword) (Parse.forStatement h keyword) :=
  next (require .leftParen _).any fun _ => next (forInitial hg) fun _ =>
    next (optionalBefore hg .semicolon) fun _ => next (require .semicolon _).any fun _ =>
      next (optionalBefore hg .rightParen) fun _ => next (require .rightParen _).any fun _ =>
        next (loopBody hg) fun _ => first (spanFrom keyword) fun _ => pure _

theorem returnStatement (hg : g.Track levels h) (keyword : Token) :
    Tracks levels g.turns .any (returnStatement g keyword) (Parse.returnStatement h keyword) := by
  refine counters fun k T => ?_
  have hmisplaced : (!(T.context k).inFunction) = (k.functionDepth == 0) := by
    simp [Setting.context, bne]
  rw [hmisplaced]
  exact next (reportIf _ _ keyword) fun _ => next (optionalBefore hg .semicolon) fun _ =>
    next (require .semicolon _).any fun _ => first (spanFrom keyword) fun _ => pure _

theorem misplacedOutsideLoop (T : Setting) (k : Counters) :
    (!(T.context k).inLoop) = (k.loopDepth == 0) := by
  simp [Setting.context, bne]

theorem breakStatement {turns : Nat} (keyword : Token) :
    Tracks levels turns .any (breakStatement keyword) (Parse.breakStatement keyword) := by
  refine counters fun k T => ?_
  rw [misplacedOutsideLoop]
  exact next (reportIf _ _ keyword) fun _ => next (require .semicolon _).any fun _ =>
    first (spanFrom keyword) fun _ => pure _

theorem continueStatement {turns : Nat} (keyword : Token) :
    Tracks levels turns .any (continueStatement keyword) (Parse.continueStatement keyword) := by
  refine counters fun k T => ?_
  rw [misplacedOutsideLoop]
  exact next (reportIf _ _ keyword) fun _ => next (require .semicolon _).any fun _ =>
    first (spanFrom keyword) fun _ => pure _

theorem catchClause (hg : g.Track levels h) :
    Tracks levels g.turns .any (catchClause g) (Parse.catchClause h) := by
  refine next (accept .catchKeyword) fun caught => ?_
  cases caught with
  | true =>
      exact next (require .leftParen _).any fun _ => next (require .identifier _).any fun _ =>
        next (require .rightParen _).any fun _ => next (require .leftBrace _).any fun _ =>
          first (block hg).any fun _ => pure _
  | false => exact pure _

theorem finallyClause (hg : g.Track levels h) :
    Tracks levels g.turns .any (finallyClause g) (Parse.finallyClause h) := by
  refine next (accept .finallyKeyword) fun present => ?_
  cases present with
  | true => exact next (require .leftBrace _).any fun _ => first (block hg).any fun _ => pure _
  | false => exact pure _

theorem tryStatement (hg : g.Track levels h) (keyword : Token) :
    Tracks levels g.turns .any (tryStatement g keyword) (Parse.tryStatement h keyword) := by
  refine next (require .leftBrace _).any fun _ => next (block hg).any fun body => ?_
  refine next (catchClause hg) fun handler => next (finallyClause hg) fun cleanup => ?_
  split
  · exact fail rfl
  · exact first (spanFrom keyword) fun _ => pure _

theorem throwStatement (hg : g.Track levels h) (keyword : Token) :
    Tracks levels g.turns .any (throwStatement g keyword) (Parse.throwStatement h keyword) :=
  next (innerExpression hg) fun _ => next (require .semicolon _).any fun _ =>
    first (spanFrom keyword) fun _ => pure _

theorem dumpStatement {turns : Nat} (keyword : Token) :
    Tracks levels turns .any (dumpStatement keyword) (Parse.dumpStatement keyword) :=
  next (require .semicolon _).any fun _ => first (spanFrom keyword) fun _ => pure _

theorem blockStatement (hg : g.Track levels h) (start : Token) :
    Tracks levels g.turns .any (blockStatement g start) (Parse.blockStatement h start) :=
  next (block hg).any fun _ => first (spanFrom start) fun _ => pure _

/-- What a keyword begins is tracked from the token behind it on. -/
theorem statement (hg : g.Track levels h) :
    Tracks (levels + 1) g.turns .strict (statement g) (Parse.statement h) := by
  refine nested (peek (fun token _ => ?_) fun token hend => ?_)
  · cases token.kind with
    | printKeyword => exact first advance fun _ => printStatement hg _
    | leftBrace => exact first advance fun _ => blockStatement hg _
    | ifKeyword => exact first advance fun _ => ifStatement hg _
    | whileKeyword => exact first advance fun _ => whileStatement hg _
    | doKeyword => exact first advance fun _ => doWhileStatement hg _
    | forKeyword => exact first advance fun _ => forStatement hg _
    | returnKeyword => exact first advance fun _ => returnStatement hg _
    | breakKeyword => exact first advance fun _ => breakStatement _
    | continueKeyword => exact first advance fun _ => continueStatement _
    | tryKeyword => exact first advance fun _ => tryStatement hg _
    | throwKeyword => exact first advance fun _ => throwStatement hg _
    | dumpKeyword => exact first advance fun _ => dumpStatement _
    | _ => exact (expressionStatement hg).onward
  · simp only [hend]
    exact expressionStatement hg

theorem declarationBody (hg : g.Track levels h) :
    Tracks (levels + 1) g.turns .strict (declarationBody g) (Parse.declarationBody h) := by
  refine peek (fun token _ => ?_) fun token hend => ?_
  · cases token.kind with
    | varKeyword => exact first advance fun _ => varDeclaration hg _ false
    | constKeyword => exact first advance fun _ => varDeclaration hg _ true
    | funKeyword =>
        refine next (checkNext (by decide)) fun named => ?_
        cases named with
        | true => exact first advance fun _ => functionDeclaration hg _
        | false => exact (statement hg).onward
    | classKeyword => exact first advance fun _ => classDeclaration hg _
    | _ => exact (statement hg).onward
  · simp only [hend]
    exact statement hg

theorem declaration (hg : g.Track levels h) :
    Tracks (levels + 1) g.turns .onward (declaration g) (Parse.declaration h) :=
  recovering (declarationBody hg)

end Statements

end Tracks

@[simp] theorem Calls.turns_upTo (turns calls : Nat) : (Calls.upTo turns calls).turns = turns := by
  cases calls <;> rfl

/-- As many calls as there are levels of nesting are enough. -/
theorem Calls.track_upTo {levels calls : Nat} (turns : Nat) (hcalls : levels ≤ calls) :
    (Calls.upTo turns calls).Track levels (Parse.Grammar.ofDepth levels) := by
  induction levels generalizing calls with
  | zero =>
      have hnone {α : Type} {pace : Pace} {m : Descent α} {p : Parse α} {n : Nat} :
          Tracks 0 n pace m p :=
        fun _ _ _ hσ => absurd hσ.levels (Nat.not_lt_zero _)
      exact ⟨hnone, hnone, hnone, hnone, hnone⟩
  | succ levels ih =>
      cases calls with
      | zero => omega
      | succ calls =>
          have hg : (upTo turns calls).Track levels (Parse.Grammar.ofDepth levels) := ih (by omega)
          have hturns {α : Type} {pace : Pace} {m : Descent α} {p : Parse α}
              (hp : Tracks (levels + 1) (upTo turns calls).turns pace m p) :
              Tracks (levels + 1) turns pace m p := by
            rwa [turns_upTo] at hp
          exact
            { assignment := hturns (Tracks.assignment hg)
              ternary := hturns (Tracks.ternary hg)
              unary := hturns (Tracks.unary hg)
              statement := hturns (Tracks.statement hg)
              declaration := hturns (Tracks.declaration hg) }

end Lox.Descent
