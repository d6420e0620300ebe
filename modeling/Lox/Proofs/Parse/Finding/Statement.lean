import Lox.Proofs.Parse.Finding.Expression

/-!
# Readers of statements find what is misplaced in them

Readers that begin behind a keyword are given it as the token that was read immediately before; only
those of constructs that may be misplaced themselves make use of it. With the readers of expressions
this makes the grammar of every depth find the misplaced constructs in what it reads.
-/

namespace Lox.Parse

namespace Locates

variable {g : Grammar} {k : Enclosure} {lower : Int}

section Declarations

theorem superclass (name : Token) :
    Locates k lower [] (Parse.superclass name) fun parent sites =>
      sites = parent.toList.flatMap fun p =>
        Enclosure.siteIf (p.1 == name.lexeme) .ownSuperclass p.2 := by
  refine next (accept .less) fun inherits => ?_
  split
  · refine consumeThen fun parent hkind => first (reportIf _ hkind) fun _ => pure ?_
    rw [List.append_nil]
    exact (List.append_nil _).symm
  · exact pure rfl

variable (hg : g.Observant)
include hg

theorem initialValue (isConst : Bool) :
    Locates k lower [] (Parse.initialValue g isConst) fun initial sites =>
      sites = Expr.misplaced? k initial := by
  have hexpression : Locates k lower [] (do return some (← g.expression)) fun initial sites =>
      sites = Expr.misplaced? k initial :=
    first (expression hg) fun e => pure (List.append_nil _)
  unfold Parse.initialValue
  split
  · exact next (consume .assign _ _) fun _ => hexpression
  · refine next (accept .assign) fun assigned => ?_
    split
    · exact hexpression
    · exact pure rfl

theorem varDeclaration (keyword : Token) (isConst : Bool) :
    Locates k lower [] (Parse.varDeclaration g keyword isConst) fun s sites =>
      sites = s.misplaced k := by
  refine next (require .identifier _) fun name => first (initialValue hg isConst) fun initial => ?_
  refine next (require .semicolon _) fun _ => next (spanFrom keyword) fun span => ?_
  exact pure (List.append_nil _)

theorem functionDeclaration (keyword : Token) :
    Locates k lower [] (Parse.functionDeclaration g keyword) fun s sites =>
      sites = s.misplaced k := by
  refine next (require .identifier _) fun name => first (functionRest hg) fun f => ?_
  exact next (spanFrom keyword) fun span => pure (List.append_nil _)

theorem method : Locates k lower [] (Parse.method g) fun d sites => sites = d.misplaced k := by
  refine next (require .identifier _) fun name => first (functionRest hg) fun f => ?_
  exact next (spanFrom name) fun span => pure (List.append_nil _)

theorem classDeclaration (keyword : Token) :
    Locates k lower [] (Parse.classDeclaration g keyword) fun s sites =>
      sites = s.misplaced k := by
  refine next (require .identifier _) fun name => first (superclass name) fun parent => ?_
  refine next (require .leftBrace _) fun _ => next budget fun tokens => ?_
  have henter (c : Context) (hc : c.enclosure = k) :
      (c.enterClass parent.isSome).enclosure = k.enterClass parent.isSome := by
    rw [← hc]
    rfl
  refine first (within (manyUntil blockEnd (method hg) tokens) henter) fun methods => ?_
  refine next (require .rightBrace _) fun _ => next (spanFrom keyword) fun span => pure ?_
  rw [List.append_nil, ← FunctionDecl.misplacedAll_eq]
  rfl

end Declarations

section Jumps

theorem breakStatement {keyword : Token} (hkind : keyword.kind = .breakKeyword) :
    Locates k keyword.span.start [keyword] (Parse.breakStatement keyword) fun s sites =>
      sites = s.misplaced k := by
  refine context fun c hc => first (reportIf _ hkind) fun _ => next (require .semicolon _) fun _ => ?_
  refine bind (spanFrom_start keyword) fun span => pure ?_
  rintro _ ⟨rfl, hspan⟩
  simp [Stmt.misplaced, Enclosure.siteIf, hspan, ← hc, Context.enclosure]

theorem continueStatement {keyword : Token} (hkind : keyword.kind = .continueKeyword) :
    Locates k keyword.span.start [keyword] (Parse.continueStatement keyword) fun s sites =>
      sites = s.misplaced k := by
  refine context fun c hc => first (reportIf _ hkind) fun _ => next (require .semicolon _) fun _ => ?_
  refine bind (spanFrom_start keyword) fun span => pure ?_
  rintro _ ⟨rfl, hspan⟩
  simp [Stmt.misplaced, Enclosure.siteIf, hspan, ← hc, Context.enclosure]

variable (hg : g.Observant)
include hg

theorem optionalBefore (kind : TokenKind) :
    Locates k lower [] (Parse.optionalBefore g kind) fun value sites =>
      sites = Expr.misplaced? k value := by
  refine next (check kind) fun found => ?_
  split
  · exact pure rfl
  · exact first (expression hg) fun e => pure (List.append_nil _)

theorem returnStatement {keyword : Token} (hkind : keyword.kind = .returnKeyword) :
    Locates k keyword.span.start [keyword] (Parse.returnStatement g keyword) fun s sites =>
      sites = s.misplaced k := by
  refine context fun c hc => first (reportIf _ hkind) fun _ => ?_
  refine first (optionalBefore hg _) fun value => next (require .semicolon _) fun _ => ?_
  refine bind (spanFrom_start keyword) fun span => pure ?_
  rintro _ ⟨rfl, hspan⟩
  simp [Stmt.misplaced, Enclosure.siteIf, hspan, ← hc, Context.enclosure]

end Jumps

section Statements

variable (hg : g.Observant)

theorem dumpStatement (keyword : Token) :
    Locates k lower [] (Parse.dumpStatement keyword) fun s sites => sites = s.misplaced k :=
  next (require .semicolon _) fun _ => next (spanFrom keyword) fun _ => pure rfl

include hg

theorem expressionStatement :
    Locates k lower [] (Parse.expressionStatement g) fun s sites => sites = s.misplaced k := by
  refine first (expression hg) fun e => next (require .semicolon _) fun _ => ?_
  exact next previous fun _ => pure (List.append_nil _)

theorem printStatement (keyword : Token) :
    Locates k lower [] (Parse.printStatement g keyword) fun s sites => sites = s.misplaced k := by
  refine first (expression hg) fun e => next (require .semicolon _) fun _ => ?_
  exact next (spanFrom keyword) fun _ => pure (List.append_nil _)

theorem throwStatement (keyword : Token) :
    Locates k lower [] (Parse.throwStatement g keyword) fun s sites => sites = s.misplaced k := by
  refine first (expression hg) fun e => next (require .semicolon _) fun _ => ?_
  exact next (spanFrom keyword) fun _ => pure (List.append_nil _)

theorem blockStatement (start : Token) :
    Locates k lower [] (Parse.blockStatement g start) fun s sites => sites = s.misplaced k := by
  refine first (block hg) fun statements => ?_
  exact next (spanFrom start) fun _ => pure (List.append_nil _)

theorem ifStatement (keyword : Token) :
    Locates k lower [] (Parse.ifStatement g keyword) fun s sites => sites = s.misplaced k := by
  refine next (require .leftParen _) fun _ => first (expression hg) fun condition => ?_
  refine next (require .rightParen _) fun _ => first (hg.statement k lower) fun thenBranch => ?_
  have helse (found : Bool) : Locates k lower []
      (if found then some <$> g.statement else Pure.pure none) fun branch sites =>
        sites = Stmt.misplaced? k branch := by
    split
    · exact first (hg.statement k lower) fun s => pure (List.append_nil _)
    · exact pure rfl
  refine next (accept .elseKeyword) fun found => ?_
  split
  · refine first (helse true) fun elseBranch => next (spanFrom keyword) fun _ => pure ?_
    rw [List.append_nil, ← List.append_assoc]
    rfl
  · refine first (helse false) fun elseBranch => next (spanFrom keyword) fun _ => pure ?_
    rw [List.append_nil, ← List.append_assoc]
    rfl

theorem loopBody :
    Locates k lower [] (Parse.loopBody g) fun s sites => sites = s.misplaced k.enterLoop :=
  within (hg.statement _ lower) fun c hc => by rw [← hc]; rfl

theorem whileStatement (keyword : Token) :
    Locates k lower [] (Parse.whileStatement g keyword) fun s sites => sites = s.misplaced k := by
  refine next (require .leftParen _) fun _ => first (expression hg) fun condition => ?_
  refine next (require .rightParen _) fun _ => first (loopBody hg) fun body => ?_
  refine next (spanFrom keyword) fun _ => pure ?_
  rw [List.append_nil]
  rfl

theorem doWhileStatement (keyword : Token) :
    Locates k lower [] (Parse.doWhileStatement g keyword) fun s sites => sites = s.misplaced k := by
  refine first (loopBody hg) fun body => next (require .whileKeyword _) fun _ => ?_
  refine next (require .leftParen _) fun _ => first (expression hg) fun condition => ?_
  refine next (require .rightParen _) fun _ => next (require .semicolon _) fun _ => ?_
  refine next (spanFrom keyword) fun _ => pure ?_
  rw [List.append_nil]
  rfl

theorem forInitial :
    Locates k lower [] (Parse.forInitial g) fun initial sites =>
      sites = Stmt.misplaced? k initial := by
  refine next (accept .semicolon) fun found => ?_
  split
  · exact pure rfl
  · refine next (check .varKeyword) fun isVar => ?_
    split
    · refine next advance fun keyword => ?_
      exact first (varDeclaration hg keyword false) fun s => pure (List.append_nil _)
    · exact first (expressionStatement hg) fun s => pure (List.append_nil _)

theorem forStatement (keyword : Token) :
    Locates k lower [] (Parse.forStatement g keyword) fun s sites => sites = s.misplaced k := by
  refine next (require .leftParen _) fun _ => first (forInitial hg) fun initial => ?_
  refine first (optionalBefore hg _) fun condition => next (require .semicolon _) fun _ => ?_
  refine first (optionalBefore hg _) fun increment => next (require .rightParen _) fun _ => ?_
  refine first (loopBody hg) fun body => next (spanFrom keyword) fun _ => pure ?_
  simp only [List.append_nil, Stmt.misplaced, List.append_assoc]

theorem catchClause :
    Locates k lower [] (Parse.catchClause g) fun handler sites =>
      sites = CatchClause.misplaced? k handler := by
  refine next (accept .catchKeyword) fun found => ?_
  split
  · refine next (require .leftParen _) fun _ => next (require .identifier _) fun name => ?_
    refine next (require .rightParen _) fun _ => next (require .leftBrace _) fun _ => ?_
    exact first (block hg) fun body => pure (List.append_nil _)
  · exact pure rfl

theorem finallyClause :
    Locates k lower [] (Parse.finallyClause g) fun cleanup sites =>
      sites = Stmt.misplacedAll? k cleanup := by
  refine next (accept .finallyKeyword) fun found => ?_
  split
  · refine next (require .leftBrace _) fun _ => ?_
    exact first (block hg) fun body => pure (List.append_nil _)
  · exact pure rfl

theorem tryStatement (keyword : Token) :
    Locates k lower [] (Parse.tryStatement g keyword) fun s sites => sites = s.misplaced k := by
  refine next (require .leftBrace _) fun _ => first (block hg) fun body => ?_
  refine first (catchClause hg) fun handler => first (finallyClause hg) fun cleanup => ?_
  split
  · exact fail rfl
  · refine next (spanFrom keyword) fun _ => pure ?_
    simp only [List.append_nil, Stmt.misplaced, List.append_assoc]

theorem keywordStatement
    {token : Token} {read : Token → Parse Stmt}
    (h : keywordStatement? g token.kind = some read) :
    Locates k token.span.start [token] (read token) fun s sites => sites = s.misplaced k := by
  unfold keywordStatement? at h
  split at h <;> cases h
  · exact behind (printStatement hg token)
  · exact behind (blockStatement hg token)
  · exact behind (ifStatement hg token)
  · exact behind (whileStatement hg token)
  · exact behind (doWhileStatement hg token)
  · exact behind (forStatement hg token)
  · next hkind => exact returnStatement hg hkind
  · next hkind => exact breakStatement hkind
  · next hkind => exact continueStatement hkind
  · exact behind (tryStatement hg token)
  · exact behind (throwStatement hg token)
  · exact behind (dumpStatement token)

theorem statement :
    Locates k lower [] (Parse.statement g) fun s sites => sites = s.misplaced k := by
  refine nested (peekThen (fun token => ?_) fun token hend => ?_)
  · split
    · next read hread => exact advance_at (keywordStatement hg hread)
    · exact at_token token (expressionStatement hg)
  · rw [hend]
    exact expressionStatement hg

theorem declarationBody :
    Locates k lower [] (Parse.declarationBody g) fun s sites => sites = s.misplaced k := by
  refine next peek fun token => ?_
  split
  · exact next advance fun keyword => varDeclaration hg keyword false
  · exact next advance fun keyword => varDeclaration hg keyword true
  · refine next (checkNext .identifier) fun isNamed => ?_
    split
    · exact next advance fun keyword => functionDeclaration hg keyword
    · exact statement hg
  · exact next advance fun keyword => classDeclaration hg keyword
  · exact statement hg

end Statements

end Locates

/-- The grammar of every depth finds the misplaced constructs in what it reads. -/
theorem Grammar.ofDepth_observant (depth : Nat) : (Grammar.ofDepth depth).Observant := by
  induction depth with
  | zero =>
      exact
        { assignment := fun _ _ => .tooDeep
          ternary := fun _ _ => .tooDeep
          unary := fun _ _ => .tooDeep
          statement := fun _ _ => .tooDeep
          declaration := fun _ _ => .tooDeep }
  | succ depth ih =>
      exact
        { assignment := fun _ _ => .assignment ih
          ternary := fun _ _ => .ternary ih
          unary := fun _ _ => .unary ih
          statement := fun _ _ => .statement ih
          declaration := fun _ _ => .recovering (.declarationBody ih) }

theorem Locates.program (k : Enclosure) (lower : Int) :
    Locates k lower [] Parse.program fun statements sites =>
      sites = Stmt.misplacedAll k statements := by
  refine next budget fun tokens => ?_
  refine first (manyUntil atEnd ((Grammar.ofDepth_observant _).declaration k lower) tokens)
    fun results => pure ?_
  rw [List.append_nil, flatMap_misplaced?]

end Lox.Parse
