import Lox.Proofs.Surface.Expression

/-!
# Statements are read by the grammar

What a reader of statements or declarations takes is a phrase with the tree that belongs to it. The
readers begin behind the keyword of their construct, which is the first token of the phrase. Of a
statement that could go on with an `else` it is also known that none follows.
-/

namespace Lox.Parse

open Surface

/-- The tokens are a statement, and if an `else` could belong to it, none follows. -/
def Completes (w : List Token) (stmt : Stmt) (t : Cursor) : Prop :=
  Statement w stmt ∧ (stmt.endsOpen = true → ∀ token ∈ t.rest.head?, token.kind ≠ .elseKeyword)

variable {g : Grammar} {s : Cursor}

section Declarations

/-- An expression that may be missing. -/
theorem takes_optionalBefore (hg : g.Conforms) (kind : TokenKind) :
    Finds (optionalBefore g kind) (Optional (Expression .assignment)) := by
  intro s
  refine .check (fun _ _ => .pure .none) fun _ => ?_
  exact (hg.phrase s).bind fun us e t _ he => .pure (by simpa using Optional.some he)

theorem takes_initialValue_var (hg : g.Conforms) :
    Finds (initialValue g false) fun w initial =>
      (w = [] ∧ initial = none) ∨ ∃ equals : Word .assign, ∃ us e,
        w = [equals.1] ++ us ∧ initial = some e ∧ Expression .assignment us e := by
  intro s
  refine (Takes.accept .assign).bind ?_
  rintro _ _ t - (⟨rfl, equals, rfl⟩ | ⟨rfl, rfl, -⟩)
  · refine (hg.phrase t).bind fun us e u _ he => .pure (.inr ?_)
    exact ⟨equals, us, e, by simp, rfl, he⟩
  · exact .pure (.inl ⟨rfl, rfl⟩)

theorem takes_initialValue_const (hg : g.Conforms) :
    Finds (initialValue g true) fun w initial =>
      ∃ equals : Word .assign, ∃ us e,
        w = [equals.1] ++ us ∧ initial = some e ∧ Expression .assignment us e := by
  intro s
  refine (Takes.consume .assign _ _).bind ?_
  rintro _ _ t - ⟨equals, rfl, rfl⟩
  refine (hg.phrase t).bind fun us e u _ he => .pure ?_
  exact ⟨equals, us, e, by simp, rfl, he⟩

theorem takes_varDeclaration (hg : g.Conforms) (keyword : Word .varKeyword)
    (hs : s.previous = keyword.1) :
    Takes s (varDeclaration g keyword.1 false) fun w stmt _ =>
      VarDeclaration ([keyword.1] ++ w) stmt := by
  refine .spanned hs ?_
  refine (Takes.require .identifier _).bind ?_
  rintro _ _ t₁ - ⟨name, rfl, rfl⟩
  refine (takes_initialValue_var hg t₁).bind fun us initial t₂ _ hinitial => ?_
  refine (Takes.require .semicolon _).bind ?_
  rintro _ _ t₃ - ⟨semicolon, rfl, rfl⟩
  refine .spanFrom (.pure fun hspan => ?_)
  rw [hspan]
  rcases hinitial with ⟨rfl, rfl⟩ | ⟨equals, us, e, rfl, rfl, he⟩
  · exact .bare keyword name semicolon (by simp)
  · exact .initialized keyword name equals semicolon (by simp) he

theorem takes_constDeclaration (hg : g.Conforms) (keyword : Word .constKeyword)
    (hs : s.previous = keyword.1) :
    Takes s (varDeclaration g keyword.1 true) fun w stmt _ =>
      Declaration ([keyword.1] ++ w) stmt := by
  refine .spanned hs ?_
  refine (Takes.require .identifier _).bind ?_
  rintro _ _ t₁ - ⟨name, rfl, rfl⟩
  refine (takes_initialValue_const hg t₁).bind ?_
  rintro _ _ t₂ - ⟨equals, us, e, rfl, rfl, he⟩
  refine (Takes.require .semicolon _).bind ?_
  rintro _ _ t₃ - ⟨semicolon, rfl, rfl⟩
  refine .spanFrom (.pure fun hspan => ?_)
  rw [hspan]
  exact .const keyword name equals semicolon (by simp) he

theorem takes_functionDeclaration (hg : g.Conforms) (keyword : Word .funKeyword)
    (hs : s.previous = keyword.1) :
    Takes s (functionDeclaration g keyword.1) fun w stmt _ =>
      Declaration ([keyword.1] ++ w) stmt := by
  refine .spanned hs ?_
  refine (Takes.require .identifier _).bind ?_
  rintro _ _ t₁ - ⟨name, rfl, rfl⟩
  refine (hg.functionRest t₁).bind fun us rest t₂ _ hrest => ?_
  refine .spanFrom (.pure fun hspan => ?_)
  rw [hspan]
  exact .function keyword name (by simp) hrest

theorem takes_method (hg : g.Conforms) : Finds (method g) Method := by
  intro s
  refine (Takes.require .identifier _).bind ?_
  rintro _ _ t₁ hpass ⟨name, rfl, rfl⟩
  have hname : t₁.previous = name.1 := hpass.previous
  refine .spanned hname ?_
  refine (hg.functionRest t₁).bind fun us rest t₂ _ hrest => ?_
  refine .spanFrom (.pure fun hspan => ?_)
  rw [hspan]
  exact .mk name (by simp) hrest

theorem takes_superclass (name : Token) : Finds (superclass name) (Optional Superclass) := by
  intro s
  refine (Takes.accept .less).bind ?_
  rintro _ _ t - (⟨rfl, less, rfl⟩ | ⟨rfl, rfl, -⟩)
  · refine (Takes.require .identifier _).bind ?_
    rintro _ _ u - ⟨parent, rfl, rfl⟩
    exact .reportIf (.pure (.some (.mk less parent)))
  · exact .pure .none

theorem takes_classDeclaration (hg : g.Conforms) (keyword : Word .classKeyword)
    (hs : s.previous = keyword.1) :
    Takes s (classDeclaration g keyword.1) fun w stmt _ =>
      Declaration ([keyword.1] ++ w) stmt := by
  refine .spanned hs ?_
  refine (Takes.require .identifier _).bind ?_
  rintro _ _ t₁ - ⟨name, rfl, rfl⟩
  refine (takes_superclass _ t₁).bind fun us parent t₂ _ hparent => ?_
  refine (Takes.require .leftBrace _).bind ?_
  rintro _ _ t₃ - ⟨opening, rfl, rfl⟩
  refine .budget ?_
  have hchange (c : Context) : (c.enterClass parent.isSome).collectAll = c.collectAll := rfl
  refine (Takes.within hchange
    (takes_manyUntil Grammar.Conforms.takes_stop (takes_method hg) _ [])).bind ?_
  rintro vs _ t₄ - ⟨methods, rfl, hmethods⟩
  refine (Takes.require .rightBrace _).bind ?_
  rintro _ _ t₅ - ⟨closing, rfl, rfl⟩
  refine .spanFrom (.pure fun hspan => ?_)
  rw [hspan]
  exact .classDecl keyword name opening closing (by simp) hparent hmethods

end Declarations

section Statements

theorem takes_expressionStatement (hg : g.Conforms) :
    Finds (expressionStatement g) ExpressionStatement := by
  intro s
  refine (hg.phrase s).bind fun us e t _ he => ?_
  refine (Takes.require .semicolon _).bind ?_
  rintro _ _ u hpass ⟨semicolon, rfl, rfl⟩
  have hsemicolon : u.previous = semicolon.1 := hpass.previous
  refine .previous (.pure ?_)
  rw [hsemicolon]
  exact .mk semicolon (by simp) he

theorem takes_printStatement (hg : g.Conforms) (keyword : Word .printKeyword)
    (hs : s.previous = keyword.1) :
    Takes s (printStatement g keyword.1) fun w => Completes ([keyword.1] ++ w) := by
  refine .spanned hs ?_
  refine (hg.phrase s).bind fun us value t₁ _ hvalue => ?_
  refine (Takes.require .semicolon _).bind ?_
  rintro _ _ t₂ - ⟨semicolon, rfl, rfl⟩
  refine .spanFrom (.pure fun hspan => ?_)
  rw [hspan]
  exact ⟨.print keyword semicolon (by simp) hvalue, nofun⟩

theorem takes_ifStatement (hg : g.Conforms) (keyword : Word .ifKeyword)
    (hs : s.previous = keyword.1) :
    Takes s (ifStatement g keyword.1) fun w => Completes ([keyword.1] ++ w) := by
  refine .spanned hs ?_
  refine (Takes.require .leftParen _).bind ?_
  rintro _ _ t₁ - ⟨opening, rfl, rfl⟩
  refine (hg.phrase t₁).bind fun us condition t₂ _ hcondition => ?_
  refine (Takes.require .rightParen _).bind ?_
  rintro _ _ t₃ - ⟨closing, rfl, rfl⟩
  refine (hg.statement t₃).bind fun vs thenBranch t₄ _ hthen => ?_
  refine (Takes.accept .elseKeyword).bind ?_
  rintro _ _ t₅ hpass (⟨rfl, otherwise, rfl⟩ | ⟨rfl, rfl, hend⟩)
  · have hclosed : thenBranch.endsOpen = false :=
      Bool.eq_false_iff.mpr fun hopen =>
        hthen.2 hopen otherwise.1 (by rw [hpass.rest]; rfl) otherwise.2
    simp only [if_true, map_eq_pure_bind, bind_assoc, pure_bind]
    refine (hg.statement t₅).bind fun ws elseBranch t₆ _ helse => ?_
    refine .spanFrom (.pure fun hspan => ?_)
    rw [hspan]
    exact ⟨.ifElse keyword opening closing otherwise (by simp) hcondition hthen.1 hclosed helse.1,
      helse.2⟩
  · simp only [Bool.false_eq_true, if_false, pure_bind]
    refine .spanFrom (.pure fun hspan => ?_)
    rw [hspan]
    exact ⟨.ifThen keyword opening closing (by simp) hcondition hthen.1, fun _ => hend⟩

theorem takes_loopBody (hg : g.Conforms) (s : Cursor) : Takes s (loopBody g) Completes :=
  .within (fun _ => rfl) (hg.statement s)

theorem takes_whileStatement (hg : g.Conforms) (keyword : Word .whileKeyword)
    (hs : s.previous = keyword.1) :
    Takes s (whileStatement g keyword.1) fun w => Completes ([keyword.1] ++ w) := by
  refine .spanned hs ?_
  refine (Takes.require .leftParen _).bind ?_
  rintro _ _ t₁ - ⟨opening, rfl, rfl⟩
  refine (hg.phrase t₁).bind fun us condition t₂ _ hcondition => ?_
  refine (Takes.require .rightParen _).bind ?_
  rintro _ _ t₃ - ⟨closing, rfl, rfl⟩
  refine (takes_loopBody hg t₃).bind fun vs body t₄ _ hbody => ?_
  refine .spanFrom (.pure fun hspan => ?_)
  rw [hspan]
  exact ⟨.whileLoop keyword opening closing (by simp) hcondition hbody.1, hbody.2⟩

theorem takes_doWhileStatement (hg : g.Conforms) (keyword : Word .doKeyword)
    (hs : s.previous = keyword.1) :
    Takes s (doWhileStatement g keyword.1) fun w => Completes ([keyword.1] ++ w) := by
  refine .spanned hs ?_
  refine (takes_loopBody hg s).bind fun us body t₁ _ hbody => ?_
  refine (Takes.require .whileKeyword _).bind ?_
  rintro _ _ t₂ - ⟨whileWord, rfl, rfl⟩
  refine (Takes.require .leftParen _).bind ?_
  rintro _ _ t₃ - ⟨opening, rfl, rfl⟩
  refine (hg.phrase t₃).bind fun vs condition t₄ _ hcondition => ?_
  refine (Takes.require .rightParen _).bind ?_
  rintro _ _ t₅ - ⟨closing, rfl, rfl⟩
  refine (Takes.require .semicolon _).bind ?_
  rintro _ _ t₆ - ⟨semicolon, rfl, rfl⟩
  refine .spanFrom (.pure fun hspan => ?_)
  rw [hspan]
  exact ⟨.doWhile keyword whileWord opening closing semicolon (by simp) hbody.1 hcondition, nofun⟩

theorem takes_forInitial (hg : g.Conforms) : Finds (forInitial g) ForInitial := by
  intro s
  refine (Takes.accept .semicolon).bind ?_
  rintro _ _ t₁ - (⟨rfl, semicolon, rfl⟩ | ⟨rfl, rfl, -⟩)
  · exact .pure (.none semicolon)
  · refine .check (fun keyword hhead => ?_) fun _ => ?_
    · refine (Takes.advance_word keyword hhead).bind ?_
      rintro _ _ t₂ hpass ⟨rfl, rfl⟩
      refine (takes_varDeclaration hg keyword hpass.previous).bind fun us stmt t₃ _ hstmt => ?_
      exact .pure (by simpa using ForInitial.var hstmt)
    · refine (takes_expressionStatement hg t₁).bind fun us stmt t₂ _ hstmt => ?_
      exact .pure (by simpa using ForInitial.expression hstmt)

theorem takes_forStatement (hg : g.Conforms) (keyword : Word .forKeyword)
    (hs : s.previous = keyword.1) :
    Takes s (forStatement g keyword.1) fun w => Completes ([keyword.1] ++ w) := by
  refine .spanned hs ?_
  refine (Takes.require .leftParen _).bind ?_
  rintro _ _ t₁ - ⟨opening, rfl, rfl⟩
  refine (takes_forInitial hg t₁).bind fun us initial t₂ _ hinitial => ?_
  refine (takes_optionalBefore hg .semicolon t₂).bind fun vs condition t₃ _ hcondition => ?_
  refine (Takes.require .semicolon _).bind ?_
  rintro _ _ t₄ - ⟨semicolon, rfl, rfl⟩
  refine (takes_optionalBefore hg .rightParen t₄).bind fun ws increment t₅ _ hincrement => ?_
  refine (Takes.require .rightParen _).bind ?_
  rintro _ _ t₆ - ⟨closing, rfl, rfl⟩
  refine (takes_loopBody hg t₆).bind fun xs body t₇ _ hbody => ?_
  refine .spanFrom (.pure fun hspan => ?_)
  rw [hspan]
  exact ⟨.forLoop keyword opening semicolon closing (by simp) hinitial hcondition hincrement
    hbody.1, hbody.2⟩

theorem takes_returnStatement (hg : g.Conforms) (keyword : Word .returnKeyword)
    (hs : s.previous = keyword.1) :
    Takes s (returnStatement g keyword.1) fun w => Completes ([keyword.1] ++ w) := by
  refine .spanned hs <| .context fun c => .reportIf ?_
  refine (takes_optionalBefore hg .semicolon s).bind fun us value t₁ _ hvalue => ?_
  refine (Takes.require .semicolon _).bind ?_
  rintro _ _ t₂ - ⟨semicolon, rfl, rfl⟩
  refine .spanFrom (.pure fun hspan => ?_)
  rw [hspan]
  exact ⟨.returnValue keyword semicolon (by simp) hvalue, nofun⟩

/-- A keyword with a semicolon is a statement. -/
theorem takes_semicolon
    {kind : TokenKind}
    (keyword : Word kind)
    (hs : s.previous = keyword.1)
    (expected : String)
    (make : Span → Stmt)
    (hmake : ∀ (semicolon : Word .semicolon) (w : List Token), w = [keyword.1, semicolon.1] →
      Statement w (make (keyword.1.spanTo w)))
    (hclosed : ∀ span, (make span).endsOpen = false) :
    Takes s (do let _ ← require .semicolon expected; return make (← spanFrom keyword.1))
      fun w => Completes ([keyword.1] ++ w) := by
  refine .spanned hs ?_
  refine (Takes.require .semicolon _).bind ?_
  rintro _ _ t - ⟨semicolon, rfl, rfl⟩
  refine .spanFrom (.pure fun hspan => ?_)
  rw [hspan]
  exact ⟨hmake semicolon _ (by simp), fun hopen => by rw [hclosed] at hopen; cases hopen⟩

theorem takes_breakStatement (keyword : Word .breakKeyword) (hs : s.previous = keyword.1) :
    Takes s (breakStatement keyword.1) fun w => Completes ([keyword.1] ++ w) :=
  .context fun _ => .reportIf <|
    takes_semicolon keyword hs _ _ (fun semicolon _ => .breakLoop keyword semicolon) fun _ => rfl

theorem takes_continueStatement (keyword : Word .continueKeyword) (hs : s.previous = keyword.1) :
    Takes s (continueStatement keyword.1) fun w => Completes ([keyword.1] ++ w) :=
  .context fun _ => .reportIf <|
    takes_semicolon keyword hs _ _ (fun semicolon _ => .continueLoop keyword semicolon) fun _ => rfl

theorem takes_dumpStatement (keyword : Word .dumpKeyword) (hs : s.previous = keyword.1) :
    Takes s (dumpStatement keyword.1) fun w => Completes ([keyword.1] ++ w) :=
  takes_semicolon keyword hs _ _ (fun semicolon _ => .dump keyword semicolon) fun _ => rfl

theorem takes_catchClause (hg : g.Conforms) : Finds (catchClause g) (Optional Catch) := by
  intro s
  refine (Takes.accept .catchKeyword).bind ?_
  rintro _ _ t₁ - (⟨rfl, keyword, rfl⟩ | ⟨rfl, rfl, -⟩)
  · refine (Takes.require .leftParen _).bind ?_
    rintro _ _ t₂ - ⟨opening, rfl, rfl⟩
    refine (Takes.require .identifier _).bind ?_
    rintro _ _ t₃ - ⟨name, rfl, rfl⟩
    refine (Takes.require .rightParen _).bind ?_
    rintro _ _ t₄ - ⟨closing, rfl, rfl⟩
    refine (Takes.require .leftBrace _).bind ?_
    rintro _ _ t₅ - ⟨brace, rfl, rfl⟩
    refine (hg.block brace t₅).bind fun us body t₆ _ hbody => .pure ?_
    exact .some (.mk keyword opening name closing (by simp) hbody)
  · exact .pure .none

theorem takes_finallyClause (hg : g.Conforms) : Finds (finallyClause g) (Optional Finally) := by
  intro s
  refine (Takes.accept .finallyKeyword).bind ?_
  rintro _ _ t₁ - (⟨rfl, keyword, rfl⟩ | ⟨rfl, rfl, -⟩)
  · refine (Takes.require .leftBrace _).bind ?_
    rintro _ _ t₂ - ⟨brace, rfl, rfl⟩
    refine (hg.block brace t₂).bind fun us body t₃ _ hbody => .pure ?_
    exact .some (.mk keyword (by simp) hbody)
  · exact .pure .none

theorem takes_tryStatement (hg : g.Conforms) (keyword : Word .tryKeyword)
    (hs : s.previous = keyword.1) :
    Takes s (tryStatement g keyword.1) fun w => Completes ([keyword.1] ++ w) := by
  refine .spanned hs ?_
  refine (Takes.require .leftBrace _).bind ?_
  rintro _ _ t₁ - ⟨opening, rfl, rfl⟩
  refine (hg.block opening t₁).bind fun us body t₂ _ hbody => ?_
  refine (takes_catchClause hg t₂).bind fun vs handler t₃ _ hhandler => ?_
  refine (takes_finallyClause hg t₃).bind fun ws cleanup t₄ _ hcleanup => ?_
  split
  · exact .fail _
  · next hclauses =>
      refine .spanFrom (.pure fun hspan => ?_)
      rw [hspan]
      refine ⟨.tryBlock keyword (by simp) hbody hhandler hcleanup ?_, nofun⟩
      cases handler <;> cases cleanup <;> simp_all

theorem takes_throwStatement (hg : g.Conforms) (keyword : Word .throwKeyword)
    (hs : s.previous = keyword.1) :
    Takes s (throwStatement g keyword.1) fun w => Completes ([keyword.1] ++ w) := by
  refine .spanned hs ?_
  refine (hg.phrase s).bind fun us value t₁ _ hvalue => ?_
  refine (Takes.require .semicolon _).bind ?_
  rintro _ _ t₂ - ⟨semicolon, rfl, rfl⟩
  refine .spanFrom (.pure fun hspan => ?_)
  rw [hspan]
  exact ⟨.throwValue keyword semicolon (by simp) hvalue, nofun⟩

theorem takes_blockStatement (hg : g.Conforms) (opening : Word .leftBrace)
    (hs : s.previous = opening.1) :
    Takes s (blockStatement g opening.1) fun w => Completes ([opening.1] ++ w) := by
  refine .spanned hs ?_
  refine (hg.block opening s).bind fun us body t₁ _ hbody => ?_
  refine .spanFrom (.pure fun hspan => ?_)
  rw [hspan]
  exact ⟨.block opening rfl (by simpa using hbody), nofun⟩

/-- The readers of the statements that begin with a keyword. -/
theorem takes_keywordStatement
    (hg : g.Conforms)
    {kind : TokenKind}
    {read : Token → Parse Stmt}
    (hread : keywordStatement? g kind = some read)
    (keyword : Word kind)
    (hs : s.previous = keyword.1) :
    Takes s (read keyword.1) fun w => Completes ([keyword.1] ++ w) := by
  unfold keywordStatement? at hread
  split at hread <;> cases hread
  · exact takes_printStatement hg keyword hs
  · exact takes_blockStatement hg keyword hs
  · exact takes_ifStatement hg keyword hs
  · exact takes_whileStatement hg keyword hs
  · exact takes_doWhileStatement hg keyword hs
  · exact takes_forStatement hg keyword hs
  · exact takes_returnStatement hg keyword hs
  · exact takes_breakStatement keyword hs
  · exact takes_continueStatement keyword hs
  · exact takes_tryStatement hg keyword hs
  · exact takes_throwStatement hg keyword hs
  · exact takes_dumpStatement keyword hs

theorem takes_statement (hg : g.Conforms) (s : Cursor) : Takes s (statement g) Completes := by
  refine .nested <| .peek ?_
  split
  · next read hread =>
      refine (Takes.advance fun hend => ?_).bind ?_
      · rw [hend] at hread
        cases hread
      · rintro _ _ t hpass ⟨rfl, rfl⟩
        exact takes_keywordStatement hg hread ⟨s.current, rfl⟩ hpass.previous
  · exact (takes_expressionStatement hg s).mono fun w stmt t _ h =>
      ⟨.expression h, by cases h; exact nofun⟩

theorem takes_declarationBody (hg : g.Conforms) : Finds (declarationBody g) Declaration := by
  intro s
  have hstatement : Takes s (statement g) fun w stmt _ => Declaration w stmt :=
    (takes_statement hg s).mono fun _ _ _ _ h => .statement h.1
  have hadvance {kind : TokenKind} (hkind : s.current.kind = kind) (hend : kind ≠ .endOfInput)
      {f : Token → Parse Stmt}
      (hf : ∀ (keyword : Word kind) (t : Cursor), t.previous = keyword.1 →
        Takes t (f keyword.1) fun w stmt _ => Declaration ([keyword.1] ++ w) stmt) :
      Takes s (advance >>= f) fun w stmt _ => Declaration w stmt := by
    refine (Takes.advance (hkind ▸ hend)).bind ?_
    rintro _ _ t hpass ⟨rfl, rfl⟩
    exact hf ⟨s.current, hkind⟩ t hpass.previous
  refine .peek ?_
  split
  · next hkind =>
      exact hadvance hkind nofun fun keyword t ht =>
        (takes_varDeclaration hg keyword ht).mono fun _ _ _ _ h => .var h
  · next hkind =>
      exact hadvance hkind nofun fun keyword t ht => takes_constDeclaration hg keyword ht
  · next hkind =>
      refine .checkNext ?_
      split
      · exact hadvance hkind nofun fun keyword t ht => takes_functionDeclaration hg keyword ht
      · exact hstatement
  · next hkind =>
      exact hadvance hkind nofun fun keyword t ht => takes_classDeclaration hg keyword ht
  · exact hstatement

end Statements

/-- Whatever the depth, what is read is a phrase of the surface grammar. -/
theorem Grammar.conforms_ofDepth (depth : Nat) : (Grammar.ofDepth depth).Conforms := by
  induction depth with
  | zero => exact ⟨fun _ => .tooDeep, fun _ => .tooDeep, fun _ => .tooDeep, fun _ => .tooDeep,
      fun _ => .tooDeep⟩
  | succ depth ih =>
      exact
        { assignment := takes_assignment ih
          ternary := takes_ternary ih
          unary := takes_unary ih
          statement := takes_statement ih
          declaration := fun s => .recovering (takes_declarationBody ih s) }

end Lox.Parse
