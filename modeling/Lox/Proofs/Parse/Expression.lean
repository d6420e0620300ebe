import Lox.Proofs.Parse.Basic
import Lox.Proofs.Tree.Building

/-!
# Readers of expressions read well-placed expressions

If the readers of a `Grammar` read well-placed code, so do the readers of expressions that are
built on them.
-/

namespace Lox.Parse

/-- The readers of the grammar read well-placed code, and its statements are no declarations. -/
structure Grammar.Sound (g : Grammar) : Prop where
  assignment : ∀ k, Reads k g.assignment (Expr.Placed k)
  ternary : ∀ k, Reads k g.ternary (Expr.Placed k)
  unary : ∀ k, Reads k g.unary (Expr.Placed k)
  statement : ∀ k, Reads k g.statement fun s => s.Placed k ∧ s.declared? = none
  declaration : ∀ k, Reads k g.declaration fun result => ∀ s ∈ result, s.Placed k

namespace Reads

variable {g : Grammar} (hg : g.Sound) {k : Enclosure}
include hg

section Grammar

theorem expression : Reads k g.expression (Expr.Placed k) :=
  nested (hg.assignment k)

theorem block : Reads k g.block fun statements => ∀ s ∈ statements, s.Placed k := by
  have hstop : Reads k
      (do return (← Parse.check .rightBrace) || (← Parse.atEnd)) fun _ => True :=
    bind (check _) fun _ => bind atEnd fun _ => pure fun _ _ => trivial
  refine bind budget fun tokens => ?_
  refine bind (manyUntil hstop (hg.declaration k) tokens []) fun read => ?_
  refine bind (require _ _) fun _ => pure fun _ hread _ s hs => ?_
  obtain ⟨result, hresult, rfl⟩ := List.mem_filterMap.mp hs
  exact hread (by simp) _ hresult s rfl

theorem functionBody :
    Reads k g.functionBody fun body => ∀ s ∈ body, s.Placed k.enterFunction :=
  within (nested (block hg)) fun c hc => by rw [← hc]; rfl

theorem functionRest :
    Reads k g.functionRest fun f =>
      (∀ name ∈ f.1, ¬IsReserved name) ∧ ∀ s ∈ f.2, s.Placed k.enterFunction := by
  refine bind (require _ _) fun _ => bind parameters fun params => ?_
  refine bind (require _ _) fun _ => bind (require _ _) fun _ => ?_
  exact bind (functionBody hg) fun body => pure fun hbody _ _ hparams _ => ⟨hparams, hbody⟩

end Grammar

section Primary

theorem arrowFunction : Reads k (Parse.arrowFunction g) (Expr.Placed k) := by
  refine bind advance fun start => bind parameters fun params => ?_
  refine bind (require _ _) fun _ => bind (require _ _) fun _ => bind (accept _) fun braced => ?_
  have hrest (body : List Stmt) : Reads k
      (do return Expr.function params body (← Parse.spanFrom start))
      fun e => (∀ name ∈ params, ¬IsReserved name) → (∀ s ∈ body, s.Placed k.enterFunction) →
        e.Placed k :=
    bind (spanFrom _) fun _ => pure fun _ hparams hbody => .of_function hparams hbody
  split
  · refine bind (functionBody hg) fun body => ?_
    exact (hrest body).weaken fun _ h hbody _ _ _ hparams _ => h hparams hbody
  · refine bind (nestedArrow (hg.assignment _)) fun value => ?_
    refine (hrest _).weaken fun _ h hvalue _ _ _ hparams _ => h hparams fun s hs => ?_
    rw [List.mem_singleton.mp hs]
    exact .of_returnValue rfl fun e he => Option.some.inj he ▸ hvalue

omit hg in
theorem superExpression (keyword : Token) :
    Reads k (Parse.superExpression keyword) (Expr.Placed k) := by
  refine bind context fun c => ?_
  have hrest : Reads k
      (do let _ ← Parse.require .dot "'.' after 'super'"
          let method ← Parse.require .identifier "superclass method name"
          return Expr.super method.lexeme (← Parse.spanFrom keyword))
      fun e => c.classHasSuperclass = some true → c.enclosure = k → e.Placed k := by
    refine bind (require _ _) fun _ => bind (require _ _) fun method => ?_
    exact bind (spanFrom _) fun span => pure fun _ _ _ hsuper hc => .of_super (hc ▸ hsuper)
  split
  · exact bind (report _) fun _ => hrest.weaken fun _ _ h => h.elim
  · exact bind (report _) fun _ => hrest.weaken fun _ _ h => h.elim
  · next hsuper => exact hrest.weaken fun _ h => h hsuper

theorem mapKey : Reads k (Parse.mapKey g) (Expr.Placed k) := by
  have hkey (isName : Bool) : Reads k
      (if isName then do
          let token ← Parse.advance
          return Expr.literal (.string token.lexeme) token.span
        else g.expression)
      (Expr.Placed k) := by
    split
    · exact bind advance fun token => pure fun _ => .of_literal _
    · exact expression hg
  refine bind (check _) fun isName => bind (checkNext _) fun hasColon => ?_
  exact (hkey _).weaken fun _ h _ _ => h

theorem mapEntry : Reads k (Parse.mapEntry g) fun entry => ∀ e ∈ entry.parts, e.Placed k := by
  refine bind (mapKey hg) fun key => bind (require _ _) fun _ => ?_
  refine bind (expression hg) fun value => pure fun hvalue _ hkey => ?_
  simpa [MapEntry.parts] using ⟨hkey, hvalue⟩

theorem listLiteral (start : Token) : Reads k (Parse.listLiteral g start) (Expr.Placed k) := by
  refine bind budget fun tokens => bind (listBefore _ (expression hg) tokens []) fun elements => ?_
  refine bind (require _ _) fun _ => bind (spanFrom _) fun span => pure fun _ _ helements _ => ?_
  exact .of_list (helements nofun)

theorem mapLiteral (start : Token) : Reads k (Parse.mapLiteral g start) (Expr.Placed k) := by
  refine bind budget fun tokens => bind (listBefore _ (mapEntry hg) tokens []) fun entries => ?_
  refine bind (require _ _) fun _ => bind (spanFrom _) fun span => pure fun _ _ hentries _ => ?_
  exact .of_map (hentries nofun)

theorem grouping : Reads k (Parse.grouping g) (Expr.Placed k) := by
  refine bind advance fun _ => bind (expression hg) fun e => ?_
  exact bind (require _ _) fun _ => pure fun _ he _ => he

theorem primary : Reads k (Parse.primary g) (Expr.Placed k) := by
  refine bind peek fun token => ?_
  split
  · exact bind advance fun _ => pure fun _ _ => .of_literal _
  · exact bind advance fun _ => pure fun _ _ => .of_literal _
  · exact bind advance fun _ => pure fun _ _ => .of_literal _
  · exact bind advance fun _ => pure fun _ _ => .of_literal _
  · exact bind advance fun _ => pure fun _ _ => .of_literal _
  · refine bind advance fun _ => bind context fun c => bind (reportIf _ _ _) fun _ => ?_
    refine pure fun hthis hc _ _ => .of_this ?_
    rw [← hc]
    simpa [Context.enclosure, Option.isSome_iff_ne_none] using hthis
  · exact bind advance fun _ => (superExpression token).weaken fun _ h _ _ => h
  · next hkind =>
      exact bind advance fun _ => pure fun _ htoken => .of_reference (htoken hkind)
  · refine bind advance fun _ => bind (functionRest hg) fun f => ?_
    exact bind (spanFrom _) fun _ => pure fun _ hf _ _ => .of_function hf.1 hf.2
  · refine bind remaining fun tokens => ?_
    split
    · exact (arrowFunction hg).weaken fun _ h _ _ => h
    · exact (grouping hg).weaken fun _ h _ _ => h
  · exact bind advance fun _ => (listLiteral hg token).weaken fun _ h _ _ => h
  · exact bind advance fun _ => (mapLiteral hg token).weaken fun _ h _ _ => h
  · exact fail _

end Primary

section Operators

theorem suffixes (tokens : List Token) (e : Expr) :
    Reads k (Parse.suffixes g tokens e) fun e' => e.Placed k → e'.Placed k := by
  induction tokens generalizing e with
  | nil => exact pure fun h => h
  | cons first left ih =>
      refine bind peek fun token => ?_
      split
      · refine bind advance fun _ => bind (parenthesised _ (expression hg)) fun arguments => ?_
        refine bind (require _ _) fun paren => ?_
        exact (ih _).weaken fun e' h _ harguments _ _ he => h (.of_call he harguments)
      · refine bind advance fun _ => bind (require _ _) fun name => ?_
        exact (ih _).weaken fun e' h _ _ _ he => h (.of_get he)
      · refine bind advance fun _ => bind (expression hg) fun index => ?_
        refine bind (require _ _) fun bracket => ?_
        exact (ih _).weaken fun e' h _ hindex _ _ he => h (.of_index he hindex)
      · exact pure fun _ h => h

theorem call : Reads k (Parse.call g) (Expr.Placed k) := by
  refine bind (primary hg) fun e => bind budget fun tokens => ?_
  exact (suffixes hg tokens e).weaken fun _ h _ he => h he

theorem power : Reads k (Parse.power g) (Expr.Placed k) := by
  refine bind (call hg) fun base => bind (accept _) fun found => ?_
  split
  · refine bind (nested (hg.unary k)) fun exponent => ?_
    exact pure fun hexponent _ hbase => .of_binary hbase hexponent
  · exact pure fun _ h => h

theorem unary : Reads k (Parse.unary g) (Expr.Placed k) := by
  refine bind peek fun token => ?_
  split
  · refine bind advance fun _ => bind (nested (hg.unary k)) fun operand => ?_
    exact pure fun hoperand _ _ => .of_unary hoperand
  · exact (power hg).weaken fun _ h _ => h

omit hg in
/-- Operands joined by operators, provided that joining keeps to well-placed code. -/
theorem chain
    {operand : Parse Expr} {join? : TokenKind → Option Join}
    (hoperand : Reads k operand (Expr.Placed k))
    (hjoin : ∀ kind, ∀ join ∈ join? kind, ∀ left right span,
      left.Placed k → right.Placed k → (join left right span).Placed k)
    (tokens : List Token)
    (left : Expr) :
    Reads k (Parse.chain operand join? tokens left) fun e => left.Placed k → e.Placed k := by
  induction tokens generalizing left with
  | nil => exact pure fun h => h
  | cons first rest ih =>
      refine bind peek fun token => ?_
      split
      · next join hfound =>
          refine bind advance fun _ => bind hoperand fun right => ?_
          refine (ih _).weaken fun e h hright _ _ hleft => h ?_
          exact hjoin _ join hfound left right _ hleft hright
      · exact pure fun _ h => h

omit hg in
theorem leftAssociative
    {operand : Parse Expr} {join? : TokenKind → Option Join}
    (hoperand : Reads k operand (Expr.Placed k))
    (hjoin : ∀ kind, ∀ join ∈ join? kind,
      (∃ op, join = joinBinary op) ∨ ∃ op, join = joinLogical op) :
    Reads k (Parse.leftAssociative operand join?) (Expr.Placed k) := by
  refine bind hoperand fun first => bind budget fun tokens => ?_
  refine (chain hoperand ?_ tokens first).weaken fun _ h _ hfirst => h hfirst
  intro kind join hfound left right span hleft hright
  rcases hjoin kind join hfound with ⟨op, rfl⟩ | ⟨op, rfl⟩
  · exact .of_binary hleft hright
  · exact .of_logical hleft hright

theorem factor : Reads k (Parse.factor g) (Expr.Placed k) :=
  leftAssociative (unary hg) fun kind join h => by
    unfold factorOp? at h
    split at h <;> cases h <;> exact .inl ⟨_, rfl⟩

theorem term : Reads k (Parse.term g) (Expr.Placed k) :=
  leftAssociative (factor hg) fun kind join h => by
    unfold termOp? at h
    split at h <;> cases h <;> exact .inl ⟨_, rfl⟩

theorem comparison : Reads k (Parse.comparison g) (Expr.Placed k) :=
  leftAssociative (term hg) fun kind join h => by
    unfold comparisonOp? at h
    split at h <;> cases h <;> exact .inl ⟨_, rfl⟩

theorem equality : Reads k (Parse.equality g) (Expr.Placed k) :=
  leftAssociative (comparison hg) fun kind join h => by
    unfold equalityOp? at h
    split at h <;> cases h <;> exact .inl ⟨_, rfl⟩

theorem logicalAnd : Reads k (Parse.logicalAnd g) (Expr.Placed k) :=
  leftAssociative (equality hg) fun kind join h => by
    unfold andOp? at h
    split at h
    · cases h
      exact .inr ⟨_, rfl⟩
    · cases h

theorem logicalOr : Reads k (Parse.logicalOr g) (Expr.Placed k) :=
  leftAssociative (logicalAnd hg) fun kind join h => by
    unfold orOp? at h
    split at h
    · cases h
      exact .inr ⟨_, rfl⟩
    · cases h

theorem ternary : Reads k (Parse.ternary g) (Expr.Placed k) := by
  refine bind (logicalOr hg) fun condition => bind (accept _) fun found => ?_
  split
  · refine bind (expression hg) fun thenBranch => bind (require _ _) fun _ => ?_
    refine bind (nested (hg.ternary k)) fun elseBranch => ?_
    exact pure fun helse _ hthen _ hcondition => .of_conditional hcondition hthen helse
  · exact pure fun _ h => h

omit hg in
/-- An assignment to a well-placed target. -/
theorem placed_assignmentTo?
    {target value e : Expr} {span : Span}
    (htarget : target.Placed k)
    (hvalue : value.Placed k)
    (h : assignmentTo? target value span = some e) :
    e.Placed k := by
  have hnames := htarget.allowed.1
  have hparts := htarget.parts
  unfold assignmentTo? at h
  split at h
  · cases h
    exact .of_assign (hnames _ List.mem_cons_self) hvalue
  · cases h
    exact .of_set (hparts _ List.mem_cons_self) hvalue
  · cases h
    have hobject := hparts _ List.mem_cons_self
    have hkey := hparts _ (List.mem_cons_of_mem _ List.mem_cons_self)
    exact .of_indexSet hobject hkey hvalue
  · cases h

theorem assignment : Reads k (Parse.assignment g) (Expr.Placed k) := by
  refine bind (ternary hg) fun target => bind (check _) fun found => ?_
  split
  · refine bind advance fun _ => bind (nested (hg.assignment k)) fun value => ?_
    split
    · next e he => exact pure fun hvalue _ _ htarget => placed_assignmentTo? htarget hvalue he
    · exact bind (report _) fun _ => pure fun h => h.elim
  · exact pure fun _ h => h

end Operators

end Reads

end Lox.Parse
