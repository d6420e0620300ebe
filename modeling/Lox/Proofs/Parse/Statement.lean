import Lox.Proofs.Parse.Expression

/-!
# Readers of statements read well-placed statements

With the readers of expressions this makes the grammar of every depth sound, and so every program
that is read without an error is well placed.
-/

namespace Lox.Parse

namespace Reads

variable {g : Grammar} (hg : g.Sound) {k : Enclosure}

section Declarations

include hg

theorem initialValue (isConst : Bool) :
    Reads k (Parse.initialValue g isConst) fun initial => ∀ e ∈ initial, e.Placed k := by
  have hexpression : Reads k (do return some (← g.expression)) fun initial : Option Expr =>
      ∀ e ∈ initial, e.Placed k :=
    bind (expression hg) fun e => pure fun he => by simpa using he
  unfold Parse.initialValue
  split
  · exact bind (consume _ _ _) fun _ => hexpression.weaken fun _ h _ => h
  · refine bind (accept _) fun found => ?_
    split
    · exact hexpression.weaken fun _ h _ => h
    · exact pure fun _ => by simp

theorem varDeclaration (keyword : Token) (isConst : Bool) :
    Reads k (Parse.varDeclaration g keyword isConst) (Stmt.Placed k) := by
  refine bind (requireName _) fun name => bind (initialValue hg isConst) fun initial => ?_
  refine bind (require _ _) fun _ => bind (spanFrom _) fun span => ?_
  exact pure fun _ _ hinitial hname => .of_declare hname hinitial

theorem functionDeclaration (keyword : Token) :
    Reads k (Parse.functionDeclaration g keyword) (Stmt.Placed k) := by
  refine bind (requireName _) fun name => bind (functionRest hg) fun f => ?_
  exact bind (spanFrom _) fun span => pure fun _ hf hname => .of_function hname hf.1 hf.2

theorem method :
    Reads k (Parse.method g) fun d =>
      (∀ name ∈ d.params, ¬IsReserved name) ∧ ∀ s ∈ d.body, s.Placed k.enterFunction := by
  refine bind (require _ _) fun name => bind (functionRest hg) fun f => ?_
  exact bind (spanFrom _) fun span => pure fun _ hf _ => hf

omit hg in
theorem superclass (name : Token) :
    Reads k (Parse.superclass name) fun parent => ∀ p ∈ parent, ¬IsReserved p.1 := by
  refine bind (accept _) fun found => ?_
  split
  · refine bind (requireName _) fun parent => bind (reportIf _ _ _) fun _ => ?_
    exact pure fun _ hparent _ => by simpa using hparent
  · exact pure fun _ => by simp

theorem classDeclaration (keyword : Token) :
    Reads k (Parse.classDeclaration g keyword) (Stmt.Placed k) := by
  have hstop {l : Enclosure} : Reads l
      (do return (← Parse.check .rightBrace) || (← Parse.atEnd)) fun _ => True :=
    bind (check _) fun _ => bind atEnd fun _ => pure fun _ _ => trivial
  refine bind (requireName _) fun name => bind (superclass name) fun parent => ?_
  refine bind (require _ _) fun _ => bind budget fun tokens => ?_
  have henter (c : Context) (hc : c.enclosure = k) :
      (c.enterClass parent.isSome).enclosure = k.enterClass parent.isSome := by
    rw [← hc]
    rfl
  have hmethods := within (manyUntil hstop (method hg (k := k.enterClass parent.isSome)) tokens [])
    henter
  refine bind hmethods fun methods => bind (require _ _) fun _ => bind (spanFrom _) fun span => ?_
  exact pure fun _ _ hread _ _ hparent hname => .of_classDecl hname hparent (hread nofun)

end Declarations

section Statements

/-- What a statement that is no declaration is read as. -/
abbrev Plain (k : Enclosure) (s : Stmt) : Prop :=
  s.Placed k ∧ s.declared? = none

include hg

theorem expressionStatement : Reads k (Parse.expressionStatement g) (Plain k) := by
  refine bind (expression hg) fun e => bind (require _ _) fun _ => bind previous fun _ => ?_
  exact pure fun _ _ he => ⟨.of_expression he, rfl⟩

theorem printStatement (keyword : Token) : Reads k (Parse.printStatement g keyword) (Plain k) := by
  refine bind (expression hg) fun e => bind (require _ _) fun _ => bind (spanFrom _) fun _ => ?_
  exact pure fun _ _ he => ⟨.of_print he, rfl⟩

theorem throwStatement (keyword : Token) : Reads k (Parse.throwStatement g keyword) (Plain k) := by
  refine bind (expression hg) fun e => bind (require _ _) fun _ => bind (spanFrom _) fun _ => ?_
  exact pure fun _ _ he => ⟨.of_throwValue he, rfl⟩

omit hg in
theorem dumpStatement (keyword : Token) : Reads k (Parse.dumpStatement keyword) (Plain k) := by
  exact bind (require _ _) fun _ => bind (spanFrom _) fun _ => pure fun _ _ => ⟨.of_dump, rfl⟩

theorem ifStatement (keyword : Token) : Reads k (Parse.ifStatement g keyword) (Plain k) := by
  refine bind (require _ _) fun _ => bind (expression hg) fun condition => ?_
  refine bind (require _ _) fun _ => bind (hg.statement k) fun thenBranch => ?_
  refine bind (accept _) fun found => ?_
  have hrest (elseBranch : Option Stmt) : Reads k
      (do return Stmt.ifElse condition thenBranch elseBranch (← Parse.spanFrom keyword))
      fun s => condition.Placed k → Plain k thenBranch → (∀ t ∈ elseBranch, Plain k t) →
        Plain k s := by
    refine bind (spanFrom _) fun span => pure fun _ hcondition hthen helse => ?_
    exact ⟨.of_ifElse hcondition hthen helse, rfl⟩
  split
  · refine bind (map (R := fun t => ∀ s ∈ t, Plain k s) (hg.statement k) (by simp))
      fun elseBranch => ?_
    exact (hrest elseBranch).weaken fun _ h helse _ hthen _ hcondition _ => h hcondition hthen helse
  · exact (hrest none).weaken fun _ h _ hthen _ hcondition _ => h hcondition hthen (by simp)

theorem loopBody : Reads k (Parse.loopBody g) (Plain k.enterLoop) :=
  within (hg.statement _) fun c hc => by rw [← hc]; rfl

theorem whileStatement (keyword : Token) : Reads k (Parse.whileStatement g keyword) (Plain k) := by
  refine bind (require _ _) fun _ => bind (expression hg) fun condition => ?_
  refine bind (require _ _) fun _ => bind (loopBody hg) fun body => bind (spanFrom _) fun _ => ?_
  exact pure fun _ hbody _ hcondition _ => ⟨.of_whileLoop hcondition hbody.1, rfl⟩

theorem doWhileStatement (keyword : Token) :
    Reads k (Parse.doWhileStatement g keyword) (Plain k) := by
  refine bind (loopBody hg) fun body => bind (require _ _) fun _ => bind (require _ _) fun _ => ?_
  refine bind (expression hg) fun condition => bind (require _ _) fun _ => ?_
  refine bind (require _ _) fun _ => bind (spanFrom _) fun _ => ?_
  exact pure fun _ _ _ hcondition _ _ hbody => ⟨.of_doWhile hbody.1 hcondition, rfl⟩

theorem forInitial :
    Reads k (Parse.forInitial g) fun initial => ∀ s ∈ initial, s.Placed k := by
  refine bind (accept _) fun found => ?_
  split
  · exact pure fun _ => by simp
  · refine bind (check _) fun isVar => ?_
    split
    · refine bind advance fun keyword => bind (varDeclaration hg keyword false) fun s => ?_
      exact pure fun hs _ _ _ => by simpa using hs
    · exact bind (expressionStatement hg) fun s => pure fun hs _ _ => by simpa using hs.1

theorem optionalBefore (kind : TokenKind) :
    Reads k (Parse.optionalBefore g kind) fun value => ∀ e ∈ value, e.Placed k := by
  refine bind (check _) fun found => ?_
  split
  · exact pure fun _ => by simp
  · exact bind (expression hg) fun e => pure fun he _ => by simpa using he

theorem forStatement (keyword : Token) : Reads k (Parse.forStatement g keyword) (Plain k) := by
  refine bind (require _ _) fun _ => bind (forInitial hg) fun initial => ?_
  refine bind (optionalBefore hg _) fun condition => bind (require _ _) fun _ => ?_
  refine bind (optionalBefore hg _) fun increment => bind (require _ _) fun _ => ?_
  refine bind (loopBody hg) fun body => bind (spanFrom _) fun _ => ?_
  refine pure fun _ hbody _ hincrement _ hcondition hinitial _ => ⟨?_, rfl⟩
  exact .of_forLoop hinitial hcondition hincrement hbody.1

theorem returnStatement (keyword : Token) :
    Reads k (Parse.returnStatement g keyword) (Plain k) := by
  refine bind context fun c => bind (reportIf _ _ _) fun _ => ?_
  refine bind (optionalBefore hg _) fun value => bind (require _ _) fun _ => ?_
  refine bind (spanFrom _) fun _ => pure fun _ _ hvalue hplaced hc => ?_
  refine ⟨.of_returnValue ?_ hvalue, rfl⟩
  rw [← hc]
  simpa [Context.enclosure] using hplaced

omit hg in
theorem breakStatement (keyword : Token) : Reads k (Parse.breakStatement keyword) (Plain k) := by
  refine bind context fun c => bind (reportIf _ _ _) fun _ => bind (require _ _) fun _ => ?_
  refine bind (spanFrom _) fun _ => pure fun _ _ hplaced hc => ⟨.of_breakLoop ?_, rfl⟩
  rw [← hc]
  simpa [Context.enclosure] using hplaced

omit hg in
theorem continueStatement (keyword : Token) :
    Reads k (Parse.continueStatement keyword) (Plain k) := by
  refine bind context fun c => bind (reportIf _ _ _) fun _ => bind (require _ _) fun _ => ?_
  refine bind (spanFrom _) fun _ => pure fun _ _ hplaced hc => ⟨.of_continueLoop ?_, rfl⟩
  rw [← hc]
  simpa [Context.enclosure] using hplaced

theorem catchClause :
    Reads k (Parse.catchClause g) fun handler => ∀ clause ∈ handler,
      ¬IsReserved clause.name ∧ ∀ s ∈ clause.body, s.Placed k := by
  refine bind (accept _) fun found => ?_
  split
  · refine bind (require _ _) fun _ => bind (requireName _) fun name => ?_
    refine bind (require _ _) fun _ => bind (require _ _) fun _ => bind (block hg) fun body => ?_
    refine pure fun hbody _ _ hname _ _ => ?_
    simpa [CatchClause.name, CatchClause.body] using ⟨hname, hbody⟩
  · exact pure fun _ => by simp

theorem finallyClause :
    Reads k (Parse.finallyClause g) fun cleanup => ∀ body ∈ cleanup, ∀ s ∈ body, s.Placed k := by
  refine bind (accept _) fun found => ?_
  split
  · refine bind (require _ _) fun _ => bind (block hg) fun body => ?_
    exact pure fun hbody _ _ => by simpa using hbody
  · exact pure fun _ => by simp

theorem tryStatement (keyword : Token) : Reads k (Parse.tryStatement g keyword) (Plain k) := by
  refine bind (require _ _) fun _ => bind (block hg) fun body => ?_
  refine bind (catchClause hg) fun handler => bind (finallyClause hg) fun cleanup => ?_
  split
  · exact fail _
  · refine bind (spanFrom _) fun _ => pure fun _ hcleanup hhandler hbody _ => ?_
    exact ⟨.of_tryBlock hbody hhandler hcleanup, rfl⟩

theorem blockStatement (start : Token) : Reads k (Parse.blockStatement g start) (Plain k) := by
  refine bind (block hg) fun statements => bind (spanFrom _) fun _ => ?_
  exact pure fun _ hstatements => ⟨.of_block hstatements, rfl⟩

theorem keywordStatement
    {kind : TokenKind} {read : Token → Parse Stmt}
    (h : keywordStatement? g kind = some read)
    (token : Token) :
    Reads k (read token) (Plain k) := by
  unfold keywordStatement? at h
  split at h <;> cases h
  · exact printStatement hg token
  · exact blockStatement hg token
  · exact ifStatement hg token
  · exact whileStatement hg token
  · exact doWhileStatement hg token
  · exact forStatement hg token
  · exact returnStatement hg token
  · exact breakStatement token
  · exact continueStatement token
  · exact tryStatement hg token
  · exact throwStatement hg token
  · exact dumpStatement token

theorem statement : Reads k (Parse.statement g) (Plain k) := by
  refine nested (bind peek fun token => ?_)
  split
  · next read hread =>
      exact bind advance fun token => (keywordStatement hg hread token).weaken fun _ h _ _ => h
  · exact (expressionStatement hg).weaken fun _ h _ => h

theorem declarationBody : Reads k (Parse.declarationBody g) (Stmt.Placed k) := by
  refine bind peek fun token => ?_
  split
  · exact bind advance fun keyword => (varDeclaration hg keyword false).weaken fun _ h _ _ => h
  · exact bind advance fun keyword => (varDeclaration hg keyword true).weaken fun _ h _ _ => h
  · refine bind (checkNext _) fun isNamed => ?_
    split
    · exact bind advance fun keyword => (functionDeclaration hg keyword).weaken fun _ h _ _ _ => h
    · exact (statement hg).weaken fun _ h _ _ => h.1
  · exact bind advance fun keyword => (classDeclaration hg keyword).weaken fun _ h _ _ => h
  · exact (statement hg).weaken fun _ h _ => h.1

end Statements

end Reads

/-- The grammar of every depth reads well-placed code. -/
theorem Grammar.ofDepth_sound (depth : Nat) : (Grammar.ofDepth depth).Sound := by
  induction depth with
  | zero =>
      exact
        { assignment := fun _ => .tooDeep
          ternary := fun _ => .tooDeep
          unary := fun _ => .tooDeep
          statement := fun _ => .tooDeep
          declaration := fun _ => .tooDeep }
  | succ depth ih =>
      exact
        { assignment := fun _ => .assignment ih
          ternary := fun _ => .ternary ih
          unary := fun _ => .unary ih
          statement := fun _ => .statement ih
          declaration := fun _ => .recovering (.declarationBody ih) }

theorem Reads.program (k : Enclosure) :
    Reads k Parse.program fun statements => ∀ s ∈ statements, s.Placed k := by
  refine bind budget fun tokens => ?_
  refine bind (manyUntil atEnd ((Grammar.ofDepth_sound _).declaration k) tokens []) fun read => ?_
  refine pure fun hread _ s hs => ?_
  obtain ⟨result, hresult, rfl⟩ := List.mem_filterMap.mp hs
  exact hread (by simp) _ hresult s rfl

end Lox.Parse
