import Lox.Proofs.Parse.Finding

/-!
# Readers of expressions find what is misplaced in them

If the readers of a `Grammar` find the misplaced constructs in what they read, so do the readers of
expressions that are built on them.
-/

namespace Lox.Parse

/-- The readers of the grammar find the misplaced constructs in what they read. -/
structure Grammar.Observant (g : Grammar) : Prop where
  assignment : ∀ k lower, Locates k lower [] g.assignment fun e sites => sites = e.misplaced k
  ternary : ∀ k lower, Locates k lower [] g.ternary fun e sites => sites = e.misplaced k
  unary : ∀ k lower, Locates k lower [] g.unary fun e sites => sites = e.misplaced k
  statement : ∀ k lower, Locates k lower [] g.statement fun s sites => sites = s.misplaced k
  declaration : ∀ k lower, Locates k lower [] g.declaration fun result sites =>
    sites = Stmt.misplaced? k result

namespace Locates

variable {g : Grammar} {k : Enclosure} {lower : Int}

section Nesting

/-- Looking for the end of a block finds nothing. -/
theorem blockEnd :
    Locates k lower [] (do return (← Parse.check .rightBrace) || (← Parse.atEnd))
      fun _ sites => sites = [] :=
  next (check .rightBrace) fun _ => next atEnd fun _ => pure rfl

/-- Declarations that were not read contain nothing. -/
theorem flatMap_misplaced? (k : Enclosure) (results : List (Option Stmt)) :
    results.flatMap (Stmt.misplaced? k) = Stmt.misplacedAll k (results.filterMap id) := by
  induction results with
  | nil => rfl
  | cons result rest ih =>
      cases result with
      | none => exact ih
      | some s => exact congrArg (s.misplaced k ++ ·) ih

variable (hg : g.Observant)
include hg

theorem expression : Locates k lower [] g.expression fun e sites => sites = e.misplaced k :=
  nested (hg.assignment k lower)

theorem block :
    Locates k lower [] g.block fun statements sites => sites = Stmt.misplacedAll k statements := by
  refine next budget fun tokens => ?_
  refine first (manyUntil blockEnd (hg.declaration k lower) tokens) fun results => ?_
  refine next (require .rightBrace _) fun _ => pure ?_
  rw [List.append_nil, flatMap_misplaced?]

theorem functionBody :
    Locates k lower [] g.functionBody fun body sites =>
      sites = Stmt.misplacedAll k.enterFunction body :=
  within (nested (block hg)) fun c hc => by rw [← hc]; rfl

theorem functionRest :
    Locates k lower [] g.functionRest fun f sites =>
      sites = Stmt.misplacedAll k.enterFunction f.2 := by
  refine next (require .leftParen _) fun _ => next parameters fun params => ?_
  refine next (require .rightParen _) fun _ => next (require .leftBrace _) fun _ => ?_
  exact first (functionBody hg) fun body => pure (List.append_nil _)

end Nesting

section Primary

theorem superExpression {keyword : Token} (hkind : keyword.kind = .superKeyword) :
    Locates k keyword.span.start [keyword] (Parse.superExpression keyword) fun e sites =>
      sites = e.misplaced k := by
  refine context fun c hc => ?_
  have hrest (found : List Site)
      (hfound : ∀ span : Span, span.start = keyword.span.start → k.superSite span = found) :
      Locates k keyword.span.start []
        (do
          let _ ← Parse.require .dot "'.' after 'super'"
          let method ← Parse.require .identifier "superclass method name"
          return Expr.super method.lexeme (← Parse.spanFrom keyword))
        fun e sites => found ++ sites = e.misplaced k := by
    refine next (require .dot _) fun _ => next (require .identifier _) fun method => ?_
    refine bind (spanFrom_start keyword) fun span => pure ?_
    rintro _ ⟨rfl, hspan⟩
    exact (List.append_nil _).trans (hfound span hspan).symm
  have hclass : k.classHasSuperclass = c.classHasSuperclass := by rw [← hc]; rfl
  split
  · next hnone =>
      refine first (l := fun _ => [⟨.superOutsideClass, keyword.span.start⟩])
        (misplaced hkind) fun _ => hrest _ fun span hspan => ?_
      rw [Enclosure.superSite, hclass, hnone, hspan]
  · next hfalse =>
      refine first (l := fun _ => [⟨.superWithoutSuperclass, keyword.span.start⟩])
        (misplaced hkind) fun _ => hrest _ fun span hspan => ?_
      rw [Enclosure.superSite, hclass, hfalse, hspan]
  · next htrue =>
      refine behind (hrest [] fun span _ => ?_)
      rw [Enclosure.superSite, hclass, htrue]

theorem thisExpression {token : Token} (hkind : token.kind = .thisKeyword) :
    Locates k lower [token]
      (do
        Parse.reportIf (← Parse.context).classHasSuperclass.isNone .thisOutsideClass token
        return Expr.this token.span)
      fun e sites => sites = e.misplaced k := by
  refine context fun c hc => first (reportIf _ hkind) fun _ => pure ?_
  rw [List.append_nil, ← hc]
  rfl

variable (hg : g.Observant)
include hg

theorem arrowFunction :
    Locates k lower [] (Parse.arrowFunction g) fun e sites => sites = e.misplaced k := by
  refine next advance fun start => next parameters fun params => ?_
  refine next (require .rightParen _) fun _ => next (require .arrow _) fun _ => ?_
  have hrest (body : List Stmt) : Locates k lower []
      (do return Expr.function params body (← Parse.spanFrom start))
      fun e sites => Stmt.misplacedAll k.enterFunction body ++ sites = e.misplaced k :=
    next (spanFrom start) fun _ => pure (List.append_nil _)
  refine next (accept .leftBrace) fun braced => ?_
  split
  · exact first (functionBody hg) hrest
  · refine first (nestedArrow (hg.assignment _ _)) fun value => ?_
    have hbody : Stmt.misplacedAll k.enterFunction [.returnValue (some value) value.span]
        = value.misplaced k.enterFunction :=
      List.append_nil _
    exact hbody ▸ hrest [.returnValue (some value) value.span]

theorem mapKey : Locates k lower [] (Parse.mapKey g) fun e sites => sites = e.misplaced k := by
  refine next (check .identifier) fun isName => next (checkNext .colon) fun hasColon => ?_
  split
  · exact next advance fun token => pure rfl
  · exact expression hg

theorem mapEntry :
    Locates k lower [] (Parse.mapEntry g) fun entry sites => sites = entry.misplaced k := by
  refine first (mapKey hg) fun key => next (require .colon _) fun _ => ?_
  exact first (expression hg) fun value => pure (by rw [List.append_nil]; rfl)

theorem listLiteral (start : Token) :
    Locates k lower [] (Parse.listLiteral g start) fun e sites => sites = e.misplaced k := by
  refine next budget fun tokens => first (listBefore _ (expression hg) tokens) fun elements => ?_
  refine next (require .rightBracket _) fun _ => next (spanFrom start) fun span => pure ?_
  rw [List.append_nil, ← Expr.misplacedAll_eq]
  rfl

theorem mapLiteral (start : Token) :
    Locates k lower [] (Parse.mapLiteral g start) fun e sites => sites = e.misplaced k := by
  refine next budget fun tokens => first (listBefore _ (mapEntry hg) tokens) fun entries => ?_
  refine next (require .rightBrace _) fun _ => next (spanFrom start) fun span => pure ?_
  rw [List.append_nil, ← MapEntry.misplacedAll_eq]
  rfl

theorem grouping : Locates k lower [] (Parse.grouping g) fun e sites => sites = e.misplaced k := by
  refine next advance fun _ => first (expression hg) fun e => ?_
  exact next (require .rightParen _) fun _ => pure (List.append_nil _)

theorem primary : Locates k lower [] (Parse.primary g) fun e sites => sites = e.misplaced k := by
  refine peekThen (fun token => ?_) fun token hend => ?_
  · have hliteral (value : Literal) : LocatesAt k lower token
        (do let _ ← Parse.advance; return Expr.literal value token.span)
        fun e sites => sites = e.misplaced k :=
      at_token token (next advance fun _ => pure rfl)
    split
    · exact hliteral _
    · exact hliteral _
    · exact hliteral _
    · exact hliteral _
    · exact hliteral _
    · next hkind => exact advance_at (thisExpression hkind)
    · next hkind => exact advance_at (superExpression hkind)
    · exact at_token token (next advance fun _ => pure rfl)
    · refine at_token token (next advance fun _ => first (functionRest hg) fun f => ?_)
      exact next (spanFrom token) fun _ => pure (List.append_nil _)
    · refine at_token token (next remaining fun tokens => ?_)
      split
      · exact arrowFunction hg
      · exact grouping hg
    · exact at_token token (next advance fun _ => listLiteral hg token)
    · exact at_token token (next advance fun _ => mapLiteral hg token)
    · exact at_token token (fail rfl)
  · simp only [hend]
    exact fail rfl

end Primary

section Operators

variable (hg : g.Observant)

/-- Joining two operands, nothing else is misplaced than in these. -/
def Unobtrusive (join : Join) : Prop :=
  ∀ k left right span,
    (join left right span).misplaced k = left.misplaced k ++ right.misplaced k

theorem leftAssociative
    {operand : Parse Expr} {join? : TokenKind → Option Join}
    (hoperand : Locates k lower [] operand fun e sites => sites = e.misplaced k)
    (hjoin : ∀ kind, ∀ join ∈ join? kind, Unobtrusive join) :
    Locates k lower [] (Parse.leftAssociative operand join?) fun e sites =>
      sites = e.misplaced k := by
  have hturn (left : Expr) : Locates k lower [] (operandTurn operand join? left) fun after sites =>
      left.misplaced k ++ sites = after.1.misplaced k := by
    refine next peek fun token => ?_
    split
    · next join hfound =>
        refine next advance fun _ => first hoperand fun right => pure ?_
        rw [List.append_nil, hjoin _ join hfound]
    · exact fail rfl
  refine first hoperand fun e => next budget fun tokens => ?_
  rw [chain_eq]
  refine (repeatWhile (l := Expr.misplaced k) (next peek fun _ => pure rfl) hturn tokens
    e).weaken ?_
  rintro _ sites ⟨e', rfl, h⟩
  exact h

include hg

theorem suffix (e : Expr) :
    Locates k lower [] (Parse.suffix g e) fun e' sites =>
      e.misplaced k ++ sites = e'.misplaced k := by
  refine next peek fun token => ?_
  split
  · refine next advance fun _ => first (parenthesised _ (expression hg)) fun arguments => ?_
    refine next (require .rightParen _) fun paren => pure ?_
    rw [List.append_nil, ← Expr.misplacedAll_eq]
    rfl
  · exact next advance fun _ => next (require .identifier _) fun name => pure (List.append_nil _)
  · refine next advance fun _ => first (expression hg) fun index => ?_
    refine next (require .rightBracket _) fun bracket => pure ?_
    rw [List.append_nil]
    rfl
  · exact fail rfl

theorem call : Locates k lower [] (Parse.call g) fun e sites => sites = e.misplaced k := by
  refine first (primary hg) fun e => next budget fun tokens => ?_
  have hturn (e : Expr) : Locates k lower [] (suffixTurn g e) fun after sites =>
      e.misplaced k ++ sites = after.1.misplaced k :=
    bind (suffix hg e) fun e' => pure fun found h => (congrArg (_ ++ ·) (List.append_nil _)).trans h
  rw [suffixes_eq]
  refine (repeatWhile (l := Expr.misplaced k) (next peek fun _ => pure rfl) hturn tokens
    e).weaken ?_
  rintro _ sites ⟨e', rfl, h⟩
  exact h

theorem power : Locates k lower [] (Parse.power g) fun e sites => sites = e.misplaced k := by
  refine first (call hg) fun base => next (accept .power) fun raised => ?_
  split
  · refine first (nested (hg.unary k lower)) fun exponent => pure ?_
    rw [List.append_nil]
    rfl
  · exact pure (List.append_nil _)

theorem unary : Locates k lower [] (Parse.unary g) fun e sites => sites = e.misplaced k := by
  refine next peek fun token => ?_
  split
  · refine next advance fun token => first (nested (hg.unary k lower)) fun operand => ?_
    exact pure (List.append_nil _)
  · exact power hg

theorem logicalOr : Locates k lower [] (Parse.logicalOr g) fun e sites => sites = e.misplaced k := by
  have hfactor : Locates k lower [] (Parse.factor g) fun e sites => sites = e.misplaced k :=
    leftAssociative (unary hg) fun kind join h => by
      unfold factorOp? at h
      split at h <;> cases h <;> exact fun _ _ _ _ => rfl
  have hterm : Locates k lower [] (Parse.term g) fun e sites => sites = e.misplaced k :=
    leftAssociative hfactor fun kind join h => by
      unfold termOp? at h
      split at h <;> cases h <;> exact fun _ _ _ _ => rfl
  have hcomparison : Locates k lower [] (Parse.comparison g) fun e sites => sites = e.misplaced k :=
    leftAssociative hterm fun kind join h => by
      unfold comparisonOp? at h
      split at h <;> cases h <;> exact fun _ _ _ _ => rfl
  have hequality : Locates k lower [] (Parse.equality g) fun e sites => sites = e.misplaced k :=
    leftAssociative hcomparison fun kind join h => by
      unfold equalityOp? at h
      split at h <;> cases h <;> exact fun _ _ _ _ => rfl
  have hand : Locates k lower [] (Parse.logicalAnd g) fun e sites => sites = e.misplaced k :=
    leftAssociative hequality fun kind join h => by
      unfold andOp? at h
      split at h <;> cases h
      exact fun _ _ _ _ => rfl
  exact leftAssociative hand fun kind join h => by
    unfold orOp? at h
    split at h <;> cases h
    exact fun _ _ _ _ => rfl

theorem ternary : Locates k lower [] (Parse.ternary g) fun e sites => sites = e.misplaced k := by
  refine first (logicalOr hg) fun condition => next (accept .question) fun chosen => ?_
  split
  · refine first (expression hg) fun thenBranch => next (require .colon _) fun _ => ?_
    refine first (nested (hg.ternary k lower)) fun elseBranch => pure ?_
    rw [List.append_nil, ← List.append_assoc]
    rfl
  · exact pure (List.append_nil _)

omit hg in
theorem misplaced_assignmentTo?
    {target value e : Expr} {span : Span}
    (h : assignmentTo? target value span = some e) :
    e.misplaced k = target.misplaced k ++ value.misplaced k := by
  unfold assignmentTo? at h
  split at h <;> cases h <;> rfl

theorem assignment :
    Locates k lower [] (Parse.assignment g) fun e sites => sites = e.misplaced k := by
  refine first (ternary hg) fun target => next (check .assign) fun assigned => ?_
  split
  · refine next advance fun equals => first (nested (hg.assignment k lower)) fun value => ?_
    split
    · next e he => exact pure (by rw [List.append_nil, misplaced_assignmentTo? he])
    · exact bind (Q := fun _ _ => False) (report rfl) fun _ => pure fun _ h => h.elim
  · exact pure (List.append_nil _)

end Operators

end Locates

end Lox.Parse
