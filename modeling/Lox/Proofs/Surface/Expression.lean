import Lox.Proofs.Surface.Reading

/-!
# Expressions are read by the grammar

What a reader of expressions takes is a phrase of its level, and the tree is the one that belongs
to the phrase. What is read as a variable, a property or an element is a target at every level,
since it can only have come through the levels unchanged or in parentheses.
-/

namespace Lox

namespace Surface

/-- The tokens are an expression of the level, and a target if a value can be assigned to it. -/
structure Reading (level : Level) (w : List Token) (e : Expr) : Prop where
  expression : Expression level w e
  target : ∀ {value : Expr} {span : Span} {e' : Expr},
    Parse.assignmentTo? e value span = some e' → Target w e

namespace Reading

variable {level : Level} {w us vs : List Token} {e : Expr}

theorem of_expression
    (h : Expression level w e)
    (hvalue : ∀ value span, Parse.assignmentTo? e value span = none) :
    Reading level w e :=
  ⟨h, fun htarget => by rw [hvalue] at htarget; cases htarget⟩

theorem loosen {tighter : Level} (h : Reading tighter w e) (hlevel : level.tighter? = some tighter) :
    Reading level w e :=
  ⟨.tighter hlevel h.expression, h.target⟩

theorem group (h : Reading .assignment us e) (opening : Word .leftParen) (closing : Word .rightParen)
    (hw : w = [opening.1] ++ us ++ [closing.1]) :
    Reading .primary w e :=
  ⟨.group opening closing hw h.expression, fun htarget => .group opening closing hw (h.target htarget)⟩

theorem property {object : Expr} (h : Reading .call us object) (dot : Word .dot)
    (name : Word .identifier) (hw : w = us ++ [dot.1, name.1]) :
    Reading .call w (.get object name.1.lexeme (object.span.merge name.1.span)) :=
  ⟨.property dot name hw h.expression, fun _ => .property dot name hw h.expression⟩

theorem element {object index : Expr} (h : Reading .call us object)
    (hindex : Reading .assignment vs index) (opening : Word .leftBracket)
    (closing : Word .rightBracket) (hw : w = us ++ [opening.1] ++ vs ++ [closing.1]) :
    Reading .call w (.index object index (object.span.merge closing.1.span)) :=
  ⟨.element opening closing hw h.expression hindex.expression,
    fun _ => .element opening closing hw h.expression hindex.expression⟩

end Reading

end Surface

namespace Parse

open Surface

/-- Nested constructs are read by the surface grammar. -/
structure Grammar.Conforms (g : Grammar) : Prop where
  assignment : Finds g.assignment (Reading .assignment)
  ternary : Finds g.ternary (Reading .ternary)
  unary : Finds g.unary (Reading .unary)
  statement : ∀ s, Takes s g.statement fun w stmt t =>
    Statement w stmt ∧ (stmt.endsOpen = true → ∀ token ∈ t.rest.head?, token.kind ≠ .elseKeyword)
  declaration : Finds g.declaration fun w stmt? => ∃ stmt, stmt? = some stmt ∧ Declaration w stmt

namespace Grammar.Conforms

variable {g : Grammar}

theorem expression (hg : g.Conforms) : Finds g.expression (Reading .assignment) :=
  fun s => .nested (hg.assignment s)

theorem phrase (hg : g.Conforms) : Finds g.expression (Expression .assignment) :=
  fun s => (hg.expression s).mono fun _ _ _ _ h => h.expression

theorem takes_stop : Finds (do return (← check .rightBrace) || (← atEnd)) fun w _ => w = [] :=
  fun _ => .kindAt <| Takes.atEnd.bind fun _ _ _ _ hw => .pure (by simp [hw])

/-- The statements are those of the declarations that were read, every one of them. -/
theorem many_of_options {w : List Token} {read : List (Option Stmt)}
    (h : Many (fun w stmt? => ∃ stmt, stmt? = some stmt ∧ Declaration w stmt) w read) :
    Many Declaration w (read.filterMap id) := by
  induction h with
  | nil => exact .nil
  | cons hstmt _ ih =>
      obtain ⟨stmt, rfl, hstmt⟩ := hstmt
      exact .cons hstmt ih

/-- A block after its opening brace. -/
theorem block (hg : g.Conforms) (opening : Word .leftBrace) :
    Finds g.block fun w body => Block ([opening.1] ++ w) body := by
  intro s
  refine .budget ?_
  refine (takes_manyUntil takes_stop hg.declaration _ []).bind ?_
  rintro w _ t - ⟨read, rfl, hread⟩
  refine (Takes.require .rightBrace _).bind ?_
  rintro _ _ u - ⟨closing, rfl, rfl⟩
  exact .pure (.mk opening closing (by simp) (many_of_options hread))

theorem functionBody (hg : g.Conforms) (opening : Word .leftBrace) :
    Finds g.functionBody fun w body => Block ([opening.1] ++ w) body :=
  fun s => .within (fun _ => rfl) (.nested (hg.block opening s))

theorem functionRest (hg : g.Conforms) : Finds g.functionRest FunctionRest := by
  intro s
  refine (Takes.require .leftParen _).bind ?_
  rintro _ _ t₁ - ⟨opening, rfl, rfl⟩
  refine (takes_parameters t₁).bind fun us params t₂ _ hparams => ?_
  refine (Takes.require .rightParen _).bind ?_
  rintro _ _ t₃ - ⟨closing, rfl, rfl⟩
  refine (Takes.require .leftBrace _).bind ?_
  rintro _ _ t₄ - ⟨brace, rfl, rfl⟩
  refine (hg.functionBody brace t₄).bind fun vs body t₅ _ hbody => ?_
  exact .pure (.mk opening closing (by simp) hparams hbody)

end Grammar.Conforms

section Primary

variable {g : Grammar} {s : Cursor}

theorem takes_arrowFunction (hg : g.Conforms) (hs : s.current.kind = .leftParen) :
    Takes s (arrowFunction g) fun w e _ => Reading .primary w e := by
  refine (Takes.advance (by simp [hs])).bind ?_
  rintro _ _ t hpass ⟨rfl, rfl⟩
  have hfirst : t.previous = s.current := hpass.previous
  refine .spanned hfirst ?_
  refine (takes_parameters t).bind fun us params t₁ _ hparams => ?_
  refine (Takes.require .rightParen _).bind ?_
  rintro _ _ t₂ - ⟨closing, rfl, rfl⟩
  refine (Takes.require .arrow _).bind ?_
  rintro _ _ t₃ - ⟨arrow, rfl, rfl⟩
  have hdone (vs : List Token) (body : List Stmt) (u : Cursor) (hbody : ArrowBody vs body)
      (hspan : s.current.span.merge u.previous.span = s.current.spanTo
        ([s.current] ++ (us ++ ([closing.1] ++ ([arrow.1] ++ vs))))) :
      Reading .primary ([s.current] ++ (us ++ ([closing.1] ++ ([arrow.1] ++ vs))))
        (.function params body (s.current.span.merge u.previous.span)) := by
    rw [hspan]
    exact .of_expression
      (.arrow ⟨s.current, hs⟩ closing arrow (by simp) hparams hbody) fun _ _ => rfl
  refine (Takes.accept .leftBrace).bind ?_
  rintro _ _ t₄ - (⟨rfl, brace, rfl⟩ | ⟨rfl, rfl, -⟩)
  · refine (hg.functionBody brace t₄).bind fun vs body t₅ _ hbody => ?_
    refine .spanFrom (.pure ?_)
    simpa using hdone _ body t₅ (.block hbody)
  · refine (Takes.nestedArrow (hg.assignment t₄)).bind fun vs value t₅ _ hvalue => ?_
    rw [pure_bind]
    refine .spanFrom (.pure ?_)
    simpa using hdone vs _ t₅ (.expression hvalue.expression)

theorem takes_superExpression (keyword : Word .superKeyword) (hs : s.previous = keyword.1) :
    Takes s (superExpression keyword.1) fun w e _ => Reading .primary ([keyword.1] ++ w) e := by
  refine .spanned hs ?_
  have hname : Takes s (do
      let _ ← require .dot "'.' after 'super'"
      let method ← require .identifier "superclass method name"
      return Expr.super method.lexeme (← spanFrom keyword.1)) fun w e t =>
        keyword.1.span.merge t.previous.span = keyword.1.spanTo ([keyword.1] ++ w) →
        Reading .primary ([keyword.1] ++ w) e := by
    refine (Takes.require .dot _).bind ?_
    rintro _ _ t₁ - ⟨dot, rfl, rfl⟩
    refine (Takes.require .identifier _).bind ?_
    rintro _ _ t₂ - ⟨name, rfl, rfl⟩
    refine .spanFrom (.pure fun hspan => ?_)
    rw [hspan]
    exact .of_expression (.super keyword dot name (by simp)) fun _ _ => rfl
  refine .context fun c => ?_
  split
  · exact .report _
  · exact .report _
  · exact hname

/-- A key of a map literal; one that is a name and read as an expression is not followed by a
colon. -/
theorem takes_mapKey (hg : g.Conforms) (s : Cursor) :
    Takes s (mapKey g) fun w key t =>
      (∃ name : Word .identifier, w = [name.1] ∧
        key = .literal (.string name.1.lexeme) name.1.span) ∨
      (Expression .assignment w key ∧ ∀ name : Word .identifier, w = [name.1] →
        ∀ token ∈ t.rest.head?, token.kind ≠ .colon) := by
  refine .kindAt (.checkNext ?_)
  split
  · next h =>
      simp only [Bool.and_eq_true, beq_iff_eq, Option.map_eq_some_iff] at h
      obtain ⟨name, hname⟩ : ∃ name : Word .identifier, s.rest.head? = some name.1 :=
        let ⟨⟨token, hhead, hkind⟩, _⟩ := h
        ⟨⟨token, hkind⟩, hhead⟩
      refine (Takes.advance_word name hname).bind ?_
      rintro _ _ t - ⟨rfl, rfl⟩
      exact .pure (.inl ⟨name, rfl, rfl⟩)
  · next h =>
      refine (hg.phrase s).mono fun w key t hpass hkey => .inr ⟨hkey, ?_⟩
      rintro name rfl token htoken hcolon
      refine h ?_
      rw [hpass.rest]
      simp only [List.cons_append, List.nil_append, List.head?_cons, Option.map_some, name.2,
        List.getElem?_cons_succ, ← List.head?_eq_getElem?, Option.mem_def.mp htoken, hcolon]
      decide

theorem takes_mapEntry (hg : g.Conforms) : Finds (mapEntry g) Entry := by
  intro s
  refine (takes_mapKey hg s).bind fun us key t₁ _ hkey => ?_
  refine (Takes.require .colon _).bind ?_
  rintro _ _ t₂ hpass ⟨colon, rfl, rfl⟩
  refine (hg.phrase t₂).bind fun vs value t₃ _ hvalue => .pure ?_
  rcases hkey with ⟨name, rfl, rfl⟩ | ⟨hkey, hnext⟩
  · exact .name name colon (by simp) hvalue
  · refine .key colon (by simp) hkey (fun name hname => ?_) hvalue
    exact hnext name hname colon.1 (by rw [hpass.rest]; rfl) colon.2

theorem takes_listLiteral (hg : g.Conforms) (opening : Word .leftBracket)
    (hs : s.previous = opening.1) :
    Takes s (listLiteral g opening.1) fun w e _ => Reading .primary ([opening.1] ++ w) e := by
  refine .spanned hs <| .budget ?_
  refine (takes_listBefore hg.phrase .rightBracket _ []).bind ?_
  rintro us _ t₁ - ⟨elements, rfl, helements⟩
  refine (Takes.require .rightBracket _).bind ?_
  rintro _ _ t₂ - ⟨closing, rfl, rfl⟩
  refine .spanFrom (.pure fun hspan => ?_)
  rw [hspan]
  exact .of_expression (.list opening closing (by simp) helements) fun _ _ => rfl

theorem takes_mapLiteral (hg : g.Conforms) (opening : Word .leftBrace)
    (hs : s.previous = opening.1) :
    Takes s (mapLiteral g opening.1) fun w e _ => Reading .primary ([opening.1] ++ w) e := by
  refine .spanned hs <| .budget ?_
  refine (takes_listBefore (takes_mapEntry hg) .rightBrace _ []).bind ?_
  rintro us _ t₁ - ⟨entries, rfl, hentries⟩
  refine (Takes.require .rightBrace _).bind ?_
  rintro _ _ t₂ - ⟨closing, rfl, rfl⟩
  refine .spanFrom (.pure fun hspan => ?_)
  rw [hspan]
  exact .of_expression (.map opening closing (by simp) hentries) fun _ _ => rfl

theorem takes_grouping (hg : g.Conforms) (hs : s.current.kind = .leftParen) :
    Takes s (grouping g) fun w e _ => Reading .primary w e := by
  refine (Takes.advance (by simp [hs])).bind ?_
  rintro _ _ t - ⟨rfl, rfl⟩
  refine (hg.expression t).bind fun us e t₁ _ he => ?_
  refine (Takes.require .rightParen _).bind ?_
  rintro _ _ t₂ - ⟨closing, rfl, rfl⟩
  exact .pure (he.group ⟨s.current, hs⟩ closing (by simp))

/-- A token that is a literal by itself. -/
theorem takes_literal
    {value : Literal}
    (hs : s.current.kind ≠ .endOfInput)
    (hvalue : literal? s.current = some value) :
    Takes s (do let _ ← advance; return .literal value s.current.span)
      fun w e _ => Reading .primary w e := by
  refine (Takes.advance hs).bind ?_
  rintro _ _ t - ⟨rfl, rfl⟩
  exact .pure (.of_expression (.literal s.current hvalue) fun _ _ => rfl)

theorem takes_primary (hg : g.Conforms) : Finds (primary g) (Reading .primary) := by
  refine fun s => .scanned fun hscanned => .peek ?_
  have hvalue (hkind : s.current.kind = .number ∨ s.current.kind = .string) :
      literal? s.current = some (s.current.literal.getD .nil) := by
    obtain ⟨value, hvalue⟩ := Option.isSome_iff_exists.mp (hscanned.current hkind)
    rcases hkind with hkind | hkind <;> simp [literal?, hkind, hvalue]
  have hadvance (hkind : s.current.kind ≠ .endOfInput) {f : Token → Parse Expr}
      (hf : ∀ t : Cursor, t.previous = s.current →
        Takes t (f s.current) fun w e _ => Reading .primary ([s.current] ++ w) e) :
      Takes s (advance >>= f) fun w e _ => Reading .primary w e := by
    refine (Takes.advance hkind).bind ?_
    rintro _ _ t hpass ⟨rfl, rfl⟩
    exact hf t hpass.previous
  split
  case h_1 hkind => exact takes_literal (by simp [hkind]) (by simp [literal?, hkind])
  case h_2 hkind => exact takes_literal (by simp [hkind]) (by simp [literal?, hkind])
  case h_3 hkind => exact takes_literal (by simp [hkind]) (by simp [literal?, hkind])
  case h_4 hkind => exact takes_literal (by simp [hkind]) (hvalue (.inl hkind))
  case h_5 hkind => exact takes_literal (by simp [hkind]) (hvalue (.inr hkind))
  case h_6 hkind =>
    refine hadvance (by simp [hkind]) fun t _ => .context fun c => .reportIf (.pure ?_)
    exact .of_expression (.this ⟨s.current, hkind⟩) fun _ _ => rfl
  case h_7 hkind =>
    exact hadvance (by simp [hkind]) fun t ht => takes_superExpression ⟨s.current, hkind⟩ ht
  case h_8 hkind =>
    refine hadvance (by simp [hkind]) fun t _ => .pure ?_
    exact ⟨.name ⟨s.current, hkind⟩, fun _ => .name ⟨s.current, hkind⟩⟩
  case h_9 hkind =>
    refine hadvance (by simp [hkind]) fun t ht => .spanned ht ?_
    refine (hg.functionRest t).bind fun us rest u _ hrest => ?_
    refine .spanFrom (.pure fun hspan => ?_)
    rw [hspan]
    exact .of_expression (.function ⟨s.current, hkind⟩ (by simp) hrest) fun _ _ => rfl
  case h_10 hkind =>
    refine .remaining ?_
    split
    · exact takes_arrowFunction hg hkind
    · exact takes_grouping hg hkind
  case h_11 hkind =>
    exact hadvance (by simp [hkind]) fun t ht => takes_listLiteral hg ⟨s.current, hkind⟩ ht
  case h_12 hkind =>
    exact hadvance (by simp [hkind]) fun t ht => takes_mapLiteral hg ⟨s.current, hkind⟩ ht
  case h_13 => exact .fail _

end Primary

section Operators

variable {g : Grammar}

/-- Calls, property names and indices make longer expressions of the same level. -/
theorem takes_suffixes
    (hg : g.Conforms)
    (left : List Token)
    {s : Cursor}
    {us : List Token}
    {e : Expr}
    (he : Reading .call us e) :
    Takes s (suffixes g left e) fun w e' _ => Reading .call (us ++ w) e' := by
  induction left generalizing s us e with
  | nil => exact .pure (by simpa using he)
  | cons _ left ih =>
      refine .peek ?_
      split
      · next hkind =>
          refine (Takes.advance (by simp [hkind])).bind ?_
          rintro _ _ t₁ - ⟨rfl, rfl⟩
          refine (takes_parenthesised hg.phrase .arguments t₁).bind fun vs arguments t₂ _ hargs => ?_
          refine (Takes.require .rightParen _).bind ?_
          rintro _ _ t₃ - ⟨closing, rfl, rfl⟩
          refine (ih (.of_expression
            (.call ⟨s.current, hkind⟩ closing rfl he.expression hargs) fun _ _ => rfl)).mono ?_
          exact fun _ _ _ _ h => by simpa using h
      · next hkind =>
          refine (Takes.advance (by simp [hkind])).bind ?_
          rintro _ _ t₁ - ⟨rfl, rfl⟩
          refine (Takes.require .identifier _).bind ?_
          rintro _ _ t₂ - ⟨name, rfl, rfl⟩
          refine (ih (he.property ⟨s.current, hkind⟩ name rfl)).mono ?_
          exact fun _ _ _ _ h => by simpa using h
      · next hkind =>
          refine (Takes.advance (by simp [hkind])).bind ?_
          rintro _ _ t₁ - ⟨rfl, rfl⟩
          refine (hg.expression t₁).bind fun vs index t₂ _ hindex => ?_
          refine (Takes.require .rightBracket _).bind ?_
          rintro _ _ t₃ - ⟨closing, rfl, rfl⟩
          refine (ih (he.element hindex ⟨s.current, hkind⟩ closing rfl)).mono ?_
          exact fun _ _ _ _ h => by simpa using h
      · exact .pure (by simpa using he)

theorem takes_call (hg : g.Conforms) : Finds (call g) (Reading .call) := by
  intro s
  refine (takes_primary hg s).bind fun us e t _ he => .budget ?_
  exact takes_suffixes hg _ (he.loosen rfl)

theorem takes_power (hg : g.Conforms) : Finds (power g) (Reading .power) := by
  intro s
  refine (takes_call hg s).bind fun us base t₁ _ hbase => ?_
  refine (Takes.accept .power).bind ?_
  rintro _ _ t₂ - (⟨rfl, op, rfl⟩ | ⟨rfl, rfl, -⟩)
  · refine (Takes.nested (hg.unary t₂)).bind fun vs exponent t₃ _ hexponent => .pure ?_
    exact .of_expression
      (.power op (by simp) hbase.expression hexponent.expression) fun _ _ => rfl
  · exact .pure (by simpa using hbase.loosen rfl)

theorem mem_unaryOperators {kind : TokenKind} {op : UnaryOp} (h : unaryOp? kind = some op) :
    (kind, op) ∈ unaryOperators ∧ kind ≠ .endOfInput := by
  unfold unaryOp? at h
  split at h <;> cases h <;> simp [unaryOperators]

theorem takes_unary (hg : g.Conforms) : Finds (unary g) (Reading .unary) := by
  refine fun s => .peek ?_
  split
  · next op hop =>
      obtain ⟨hmem, hkind⟩ := mem_unaryOperators hop
      refine (Takes.advance hkind).bind ?_
      rintro _ _ t₁ - ⟨rfl, rfl⟩
      refine (Takes.nested (hg.unary t₁)).bind fun us operand t₂ _ hoperand => .pure ?_
      exact .of_expression (.unary s.current hmem (by simp) hoperand.expression) fun _ _ => rfl
  · exact (takes_power hg s).mono fun _ _ _ _ h => h.loosen rfl

/-- No operator ends the input, and no value can be assigned to what it joins. -/
theorem operators_join (level : Level) :
    ∀ p ∈ level.operators, p.1 ≠ .endOfInput ∧
      ∀ left right span value span', assignmentTo? (p.2 left right span) value span' = none := by
  cases level <;> simp [Level.operators, joinBinary, joinLogical, assignmentTo?]

section Chains

variable {level tighter : Level} {operand : Parse Expr} {join? : TokenKind → Option Join}

theorem takes_chain
    (hlevel : level.tighter? = some tighter)
    (hjoin : ∀ kind, join? kind = level.operators.lookup kind)
    (hoperand : Finds operand (Reading tighter))
    (tokens : List Token)
    {s : Cursor}
    {us : List Token}
    {left : Expr}
    (hleft : Reading level us left) :
    Takes s (chain operand join? tokens left) fun w e _ => Reading level (us ++ w) e := by
  induction tokens generalizing s us left with
  | nil => exact .pure (by simpa using hleft)
  | cons _ tokens ih =>
      refine .peek ?_
      split
      · next join hjoined =>
          have hmem : (s.current.kind, join) ∈ level.operators := by
            obtain ⟨before, after, heq, -⟩ := List.lookup_eq_some_iff.mp (hjoin _ ▸ hjoined)
            simp [heq]
          obtain ⟨hkind, hvalue⟩ := operators_join level _ hmem
          refine (Takes.advance hkind).bind ?_
          rintro _ _ t₁ - ⟨rfl, rfl⟩
          refine (hoperand t₁).bind fun vs right t₂ _ hright => ?_
          refine (ih (.of_expression
            (.joined s.current hlevel hmem rfl hleft.expression hright.expression)
            (hvalue _ _ _))).mono ?_
          exact fun _ _ _ _ h => by simpa using h
      · exact .pure (by simpa using hleft)

theorem takes_leftAssociative
    (hlevel : level.tighter? = some tighter)
    (hjoin : ∀ kind, join? kind = level.operators.lookup kind)
    (hoperand : Finds operand (Reading tighter)) :
    Finds (leftAssociative operand join?) (Reading level) := by
  intro s
  refine (hoperand s).bind fun us first t _ hfirst => .budget ?_
  exact takes_chain hlevel hjoin hoperand _ (hfirst.loosen hlevel)

end Chains

theorem takes_logicalOr (hg : g.Conforms) : Finds (logicalOr g) (Reading .disjunction) := by
  have hfactor : Finds (factor g) (Reading .factor) :=
    takes_leftAssociative rfl (fun kind => by cases kind <;> rfl) (takes_unary hg)
  have hterm : Finds (term g) (Reading .term) :=
    takes_leftAssociative rfl (fun kind => by cases kind <;> rfl) hfactor
  have hcomparison : Finds (comparison g) (Reading .comparison) :=
    takes_leftAssociative rfl (fun kind => by cases kind <;> rfl) hterm
  have hequality : Finds (equality g) (Reading .equality) :=
    takes_leftAssociative rfl (fun kind => by cases kind <;> rfl) hcomparison
  have hconjunction : Finds (logicalAnd g) (Reading .conjunction) :=
    takes_leftAssociative rfl (fun kind => by cases kind <;> rfl) hequality
  exact takes_leftAssociative rfl (fun kind => by cases kind <;> rfl) hconjunction

theorem takes_ternary (hg : g.Conforms) : Finds (ternary g) (Reading .ternary) := by
  intro s
  refine (takes_logicalOr hg s).bind fun us condition t₁ _ hcondition => ?_
  refine (Takes.accept .question).bind ?_
  rintro _ _ t₂ - (⟨rfl, question, rfl⟩ | ⟨rfl, rfl, -⟩)
  · refine (hg.phrase t₂).bind fun vs thenBranch t₃ _ hthen => ?_
    refine (Takes.require .colon _).bind ?_
    rintro _ _ t₄ - ⟨colon, rfl, rfl⟩
    refine (Takes.nested (hg.ternary t₄)).bind fun ws elseBranch t₅ _ helse => .pure ?_
    exact .of_expression (.conditional question colon (by simp) hcondition.expression hthen
      helse.expression) fun _ _ => rfl
  · exact .pure (by simpa using hcondition.loosen rfl)

/-- No value can be assigned to an assignment. -/
theorem assignmentTo?_of_assignment {target value e value' : Expr} {span span' : Span}
    (h : assignmentTo? target value span = some e) :
    assignmentTo? e value' span' = none := by
  unfold assignmentTo? at h
  split at h <;> cases h <;> rfl

theorem takes_assignment (hg : g.Conforms) : Finds (assignment g) (Reading .assignment) := by
  intro s
  refine (takes_ternary hg s).bind fun us target t₁ _ htarget => ?_
  refine .check (fun equals hhead => ?_) fun _ => .pure (by simpa using htarget.loosen rfl)
  refine (Takes.advance_word equals hhead).bind ?_
  rintro _ _ t₂ - ⟨rfl, rfl⟩
  refine (Takes.nested (hg.assignment t₂)).bind fun vs value t₃ _ hvalue => ?_
  split
  · next e hassigned =>
      refine .pure (.of_expression ?_ fun _ _ => assignmentTo?_of_assignment hassigned)
      exact .assign equals (by simp) (htarget.target hassigned) hvalue.expression hassigned
  · exact .report _

end Operators

end Parse

end Lox
