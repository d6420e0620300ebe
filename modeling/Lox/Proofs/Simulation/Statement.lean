import Lox.Proofs.Simulation.Expression

/-!
# Statements under a simulation

Evaluators that agree on the parts of a statement agree on the statement. With the same result for
expressions and function bodies this is the main theorem about simulations,
`Simulation.Lawful.ofRoom`: the laws of a simulation suffice for the evaluators of every room to
agree with themselves.
-/

namespace Lox

namespace Simulation

open Eval

variable {code : Discipline} {S : Simulation code}
variable {k : code.Setting} {p : S.Place} {g g' : Evaluator}

section Loops

variable (hS : S.Lawful) (hg : S.Evaluates g g')
include hS hg

theorem whileIterations_keeps
    {condition : Expr} {body : Stmt}
    (hcondition : code.expr k condition)
    (hbody : code.stmt (code.loop (code.block k)) body)
    (fuel : Nat) :
    S.Keeps k p (S.signal k) (whileIterations g condition body fuel)
      (whileIterations g' condition body fuel) := by
  induction fuel with
  | zero => exact Related.stop trivial
  | succ fuel ih =>
      refine Related.bind (hg.evaluate hcondition) fun v _ => ?_
      split
      · refine Related.bind (hS.loopBody hg.execute (code.runs_expr hcondition) hbody)
          fun sig hsig => ?_
        cases sig with
        | normal => exact ih
        | continued => exact ih
        | broke => exact Related.pure trivial
        | returned v => exact Related.pure (signal_of_loop hsig (by simp) (by simp))
        | thrown t => exact Related.pure (signal_of_loop hsig (by simp) (by simp))
      · exact Related.pure trivial

theorem doWhile_keeps
    {condition : Expr} {body : Stmt}
    (hcondition : code.expr k condition)
    (hbody : code.stmt (code.loop (code.block k)) body)
    (fuel : Nat) :
    S.Keeps k p (S.signal k) (doWhile g condition body fuel)
      (doWhile g' condition body fuel) := by
  have hrest := whileIterations_keeps hS hg (k := k) (p := p) hcondition hbody fuel
  refine Related.bind (hS.loopBody hg.execute (code.runs_expr hcondition) hbody)
    fun sig hsig => ?_
  cases sig with
  | normal => exact hrest
  | continued => exact hrest
  | broke => exact Related.pure trivial
  | returned v => exact Related.pure (signal_of_loop hsig (by simp) (by simp))
  | thrown t => exact Related.pure (signal_of_loop hsig (by simp) (by simp))

omit hS in
theorem holds_keeps
    {condition : Option Expr}
    (hcondition : ∀ e ∈ condition, code.expr k e) :
    S.Keeps k p (fun _ => True) (holds g condition) (holds g' condition) := by
  cases condition with
  | none => exact Related.pure trivial
  | some e => exact Related.bind (hg.evaluate (hcondition e rfl)) fun _ _ => Related.pure trivial

omit hS in
theorem advance_keeps
    {increment : Option Expr}
    (hincrement : ∀ e ∈ increment, code.expr k e)
    (isFirst : Bool) :
    S.Keeps k p (fun _ => True) (advance g isFirst increment) (advance g' isFirst increment) := by
  cases increment with
  | none => cases isFirst <;> exact Related.pure trivial
  | some e =>
      cases isFirst with
      | true => exact Related.pure trivial
      | false =>
          exact Related.bind (hg.evaluate (hincrement e rfl)) fun _ _ => Related.pure trivial

/-- The iterations of a `for` statement start at a place whose scope they copy, and end at a place
beside it. -/
theorem forIterations_related
    {condition increment : Option Expr} {body : Stmt}
    (hk : code.runs k)
    (hcondition : ∀ e ∈ condition, code.expr (code.block k) e)
    (hincrement : ∀ e ∈ increment, code.expr (code.block k) e)
    (hbody : code.stmt (code.loop (code.block (code.block k))) body)
    (fuel : Nat)
    (isFirst : Bool)
    (p : S.Place) :
    Related (S.rel (code.block k) p) (S.near (code.block k) p) (S.signal (code.block k))
      (Interruption.Carries S.value)
      (forIterations g condition increment body fuel isFirst (S.scope p))
      (forIterations g' condition increment body fuel isFirst (S.scope p)) := by
  induction fuel generalizing isFirst p with
  | zero => exact fun _ _ hm => .stopped trivial (hS.near_self hm)
  | succ fuel ih =>
      intro m m' hm
      have hrun := code.runs_block hk
      obtain ⟨hcurrent, hcurrent'⟩ := hS.current hrun hm
      obtain ⟨q, hpq, hq⟩ := hS.copy hk hm
      rw [hcurrent, hcurrent'] at hq
      obtain ⟨hscope, hscope'⟩ := hS.current hrun hq
      have hnear : ∀ n n', S.rel (code.block k) q n n' → S.near (code.block k) p n n' :=
        fun _ _ hn => ⟨q, hpq, hn⟩
      -- the iterations that follow start at the place of the copy
      have hrest : Related (S.rel (code.block k) q) (S.near (code.block k) p)
          (S.signal (code.block k)) (Interruption.Carries S.value)
          (forIterations g condition increment body fuel false (S.scope q))
          (forIterations g' condition increment body fuel false (S.scope q)) :=
        (ih false q).weaken (fun _ _ => hS.near_of_beside hpq) fun _ h => h
      have hpure : ∀ sig, S.signal (code.block k) sig →
          Related (S.rel (code.block k) q) (S.near (code.block k) p)
            (S.signal (code.block k)) (Interruption.Carries S.value) (pure sig) (pure sig) :=
        fun _ hsig _ _ hn => .done hsig (hnear _ _ hn)
      simp only [forIterations, bind_apply, enterCopy]
      simp only [Machine.enterCopy] at hscope hscope' hq
      simp only [Outcome.andThen, hscope, hscope']
      refine Related.andThen (advance_keeps hg hincrement isFirst) hnear (fun _ _ => ?_) _ _
        (by simpa only [hscope, hscope'] using hq)
      refine Related.andThen (holds_keeps hg hcondition) hnear fun holds _ => ?_
      split
      · refine Related.andThen (hS.loopBody hg.execute hrun hbody) hnear fun sig hsig => ?_
        cases sig with
        | normal => exact hrest
        | continued => exact hrest
        | broke => exact hpure _ trivial
        | returned v => exact hpure _ (signal_of_loop hsig (by simp) (by simp))
        | thrown t => exact hpure _ (signal_of_loop hsig (by simp) (by simp))
      · exact hpure _ trivial

theorem executeFor_keeps
    {initial : Option Stmt} {condition increment : Option Expr} {body : Stmt} {fuel : Nat}
    (hk : code.runs k)
    (hinitial : ∀ s ∈ initial, code.stmt (code.block k) s)
    (hcondition : ∀ e ∈ condition, code.expr (code.block k) e)
    (hincrement : ∀ e ∈ increment, code.expr (code.block k) e)
    (hbody : code.stmt (code.loop (code.block (code.block k))) body) :
    S.Keeps k p (S.signal k) (executeFor g initial condition increment body fuel)
      (executeFor g' initial condition increment body fuel) := by
  refine Related.conclude ?_ fun sig => signal_of_block
  refine hS.inInnerScope hk (by simp) fun q => ?_
  have hstart : S.Keeps (code.block k) q (S.signal (code.block k))
      (executeOptional g initial) (executeOptional g' initial) := by
    cases initial with
    | none => exact Related.pure trivial
    | some s => exact hg.execute (hinitial s rfl)
  have hself : ∀ n n', S.rel (code.block k) q n n' → S.near (code.block k) q n n' :=
    fun _ _ => hS.near_self
  refine Related.andThen hstart hself fun sig hsig => ?_
  cases sig with
  | normal =>
      intro m m' hm
      obtain ⟨hcurrent, hcurrent'⟩ := hS.current (code.runs_block hk) hm
      simp only [bind_apply, ask, Outcome.andThen, hcurrent, hcurrent']
      exact forIterations_related hS hg hk hcondition hincrement hbody fuel true q m m' hm
  | returned v => exact fun _ _ hm => .done hsig (hself _ _ hm)
  | broke => exact fun _ _ hm => .done hsig (hself _ _ hm)
  | continued => exact fun _ _ hm => .done hsig (hself _ _ hm)
  | thrown t => exact fun _ _ hm => .done hsig (hself _ _ hm)

end Loops

section Clauses

variable (hS : S.Lawful) (hg : S.Evaluates g g')
include hS hg

theorem evaluateOptional_keeps
    {e : Option Expr}
    (he : ∀ e' ∈ e, code.expr k e') :
    S.Keeps k p S.value (evaluateOptional g e) (evaluateOptional g' e) := by
  cases e with
  | none => exact Related.pure (hS.value_plain rfl)
  | some e => exact hg.evaluate (he e rfl)

omit hS in
theorem evaluateSuperclass_keeps
    {superclass : Option (String × Span)}
    (h : ∀ parent ∈ superclass, code.expr k (.reference parent.1 parent.2)) :
    S.Keeps k p
      (fun parent => parent.isSome = superclass.isSome ∧ ∀ id ∈ parent, S.value (.class id))
      (evaluateSuperclass g superclass) (evaluateSuperclass g' superclass) := by
  cases superclass with
  | none => exact Related.pure (by simp)
  | some parent =>
      refine Related.bind (hg.evaluate (h parent rfl)) fun v hv => ?_
      cases v with
      | «class» id => exact Related.pure (by simpa using hv)
      | nil | boolean b | number x | string s | function id | native id | «instance» id | list id
      | map id => exact Related.stop trivial

theorem executeHandler_keeps
    {handler : Option CatchClause} {signal : Signal}
    (hk : code.runs k)
    (hname : ∀ name ∈ handler.toList.map CatchClause.name, code.binds k name)
    (hbody : ∀ s ∈ handler.toList.flatMap CatchClause.body, code.stmt (code.block k) s)
    (hsignal : S.signal k signal) :
    S.Keeps k p (S.signal k) (executeHandler g handler signal)
      (executeHandler g' handler signal) := by
  cases handler with
  | none => cases signal <;> exact Related.pure hsignal
  | some clause =>
      cases clause with
      | mk name body =>
          cases signal with
          | thrown t =>
              refine hS.executeBlock hg.execute hk ?_ fun s hs => hbody s ?_
              · simpa using ⟨hname name (by simp [CatchClause.name]), hsignal⟩
              · simpa [CatchClause.body] using hs
          | normal => exact Related.pure hsignal
          | returned v => exact Related.pure hsignal
          | broke => exact Related.pure hsignal
          | continued => exact Related.pure hsignal

theorem executeTry_keeps
    {body : List Stmt} {handler : Option CatchClause} {cleanup : Option (List Stmt)}
    (hk : code.runs k)
    (hbody : ∀ s ∈ body, code.stmt (code.block k) s)
    (hname : ∀ name ∈ handler.toList.map CatchClause.name, code.binds k name)
    (hhandler : ∀ s ∈ handler.toList.flatMap CatchClause.body, code.stmt (code.block k) s)
    (hcleanup : ∀ statements ∈ cleanup, ∀ s ∈ statements, code.stmt (code.block k) s) :
    S.Keeps k p (S.signal k) (executeTry g body handler cleanup)
      (executeTry g' body handler cleanup) := by
  refine Related.bind (hS.executeBlock hg.execute hk (by simp) hbody) fun sig hsig => ?_
  refine Related.bind (executeHandler_keeps hS hg hk hname hhandler hsig) fun pending hpending => ?_
  cases cleanup with
  | none => exact Related.pure hpending
  | some statements =>
      refine Related.bind
        (hS.executeBlock hg.execute hk (by simp) (hcleanup statements rfl)) fun last hlast => ?_
      cases last with
      | normal => exact Related.pure hpending
      | returned v => exact Related.pure hlast
      | broke => exact Related.pure hlast
      | continued => exact Related.pure hlast
      | thrown t => exact Related.pure hlast

end Clauses

/-- **Statements.** Evaluators that agree on all code agree on every statement by one step more. -/
theorem executeStep_keeps
    (limits : Limits)
    (hS : S.Lawful)
    (hg : S.Evaluates g g')
    {s : Stmt}
    (hs : code.stmt k s) :
    S.Keeps k p (S.signal k) (executeStep limits g s) (executeStep limits g' s) := by
  have hk := code.runs_stmt hs
  have hexprs := code.stmt_expressions hs
  have hinner := code.stmt_inner hs
  refine Related.settle ?_ (fun _ _ => hS.frames) carries_failed (fun _ h => h)
    fun _ _ _ => hS.value_plain rfl
  cases s with
  | expression e span =>
      refine Related.bind (hg.evaluate (hexprs e (by simp [Stmt.expressions]))) fun v hv => ?_
      refine Related.bind (V := fun _ => True) (Related.update trivial fun m m' hm => ?_)
        fun _ _ => Related.pure trivial
      exact hS.lastValue hk hv hm
  | print e span =>
      refine Related.bind (hg.evaluate (hexprs e (by simp [Stmt.expressions]))) fun v hv => ?_
      refine Related.bind (V := fun _ => True)
        (Related.ask fun m m' hm => ⟨hS.text hv hm, trivial⟩) fun line _ => ?_
      refine Related.bind (V := fun _ => True) (Related.update trivial fun m m' hm => ?_)
        fun _ _ => Related.pure trivial
      exact hS.print line hk hm
  | declare name initial isConst span =>
      refine Related.bind
        (evaluateOptional_keeps hS hg fun e he => hexprs e (by simpa [Stmt.expressions] using he))
        fun v hv => ?_
      exact Related.bind (hS.declare hs hv) fun _ _ => Related.pure trivial
  | block statements span =>
      exact hS.executeBlock hg.execute hk (by simp)
        fun t ht => hinner t (by simpa [Stmt.inner] using ht)
  | ifElse condition thenBranch elseBranch span =>
      have hbranches := code.stmt_branches hs
      refine Related.bind (hg.evaluate (hexprs condition (by simp [Stmt.expressions])))
        fun v _ => ?_
      split
      · exact hg.execute (hbranches thenBranch (by simp [Stmt.branches]))
      · cases elseBranch with
        | none => exact Related.pure trivial
        | some t => exact hg.execute (hbranches t (by simp [Stmt.branches]))
  | whileLoop condition body span =>
      exact whileIterations_keeps hS hg (hexprs condition (by simp [Stmt.expressions]))
        (code.stmt_loopBody hs body rfl) limits.fuel
  | doWhile body condition span =>
      exact doWhile_keeps hS hg (hexprs condition (by simp [Stmt.expressions]))
        (code.stmt_loopBody hs body rfl) limits.fuel
  | forLoop initial condition increment body span =>
      refine executeFor_keeps hS hg hk (fun t ht => hinner t (by simpa [Stmt.inner] using ht))
        (fun e he => ?_) (fun e he => ?_) ?_
      · exact code.expr_block (hexprs e (by simp_all [Stmt.expressions]))
      · exact code.expr_block (hexprs e (by simp_all [Stmt.expressions]))
      · rw [code.block_block]
        exact code.stmt_loopBody hs body rfl
  | breakLoop span => exact Related.pure (code.stmt_break hs)
  | continueLoop span => exact Related.pure (code.stmt_continue hs)
  | function d => exact hS.declareFunction hs
  | returnValue value span =>
      refine Related.bind
        (evaluateOptional_keeps hS hg fun e he => hexprs e (by simpa [Stmt.expressions] using he))
        fun v hv => ?_
      exact Related.pure ⟨code.stmt_return hs, hv⟩
  | classDecl name superclass methods span =>
      refine Related.bind (evaluateSuperclass_keeps hg fun parent hparent => ?_)
        fun parent hparent => ?_
      · exact hexprs _ (by simp_all [Stmt.expressions])
      · exact hS.defineClass hs hparent.1 hparent.2
  | tryBlock body handler cleanup span =>
      refine executeTry_keeps hS hg hk (fun t ht => hinner t ?_)
        (fun name hname =>
          code.stmt_handlerNames hs name (by simpa [Stmt.handlerNames] using hname))
        (fun t ht => hinner t ?_) (fun statements hstatements t ht => hinner t ?_)
      · simp [Stmt.inner, ht]
      · simp only [Stmt.inner, List.mem_append]
        exact Or.inl (Or.inr ht)
      · simp_all [Stmt.inner]
  | throwValue value span =>
      refine Related.bind (hg.evaluate (hexprs value (by simp [Stmt.expressions]))) fun v hv => ?_
      refine Related.bind (V := fun _ => True)
        (Related.ask fun m m' hm => ⟨by rw [hS.frames hm], trivial⟩) fun trace _ => ?_
      exact Related.pure hv
  | dump span => exact hS.dump hs

end Simulation

namespace Evaluator

/-- The evaluator that uses `g` for the parts. -/
def deeper (limits : Limits) (g : Evaluator) : Evaluator where
  evaluate := Eval.evaluateStep limits g
  execute := Eval.executeStep limits g
  run := Eval.executeAll g

end Evaluator

namespace Simulation

variable {code : Discipline} {S : Simulation code}

theorem Evaluates.deeper
    (limits : Limits)
    {g g' : Evaluator}
    (hS : S.Lawful)
    (hg : S.Evaluates g g') :
    S.Evaluates (Evaluator.deeper limits g) (Evaluator.deeper limits g') where
  evaluate he := evaluateStep_keeps limits hS hg he
  execute hs := executeStep_keeps limits hS hg hs
  run hbody := executeAll (fun _ hs => hg.execute hs) _ (code.body_stmts hbody)

/-- **The main theorem on simulations.** Under its laws, code that may run does the same on
machines that a simulation relates, and leaves them related. -/
theorem Lawful.ofRoom (hS : S.Lawful) (limits : Limits) (room : Nat) :
    S.Evaluates (Evaluator.ofRoom limits room) (Evaluator.ofRoom limits room) := by
  induction room with
  | zero =>
      exact
        { evaluate := fun _ => Eval.Related.stop trivial
          execute := fun _ => Eval.Related.stop trivial
          run := fun _ => Eval.Related.stop trivial }
  | succ room ih => exact ih.deeper limits hS

end Simulation

end Lox
