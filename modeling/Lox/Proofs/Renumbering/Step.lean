import Lox.Proofs.Renumbering.Operation
import Lox.Proofs.Simulation.Statement

/-!
# Running code under other scope numbers

Code of every kind is equivariant where scopes are shared, and code that makes no functions is
also equivariant in scopes that nothing closes over: `Evaluator.equivariant_ofRoom`. This is shown
function by function; the body of a function that is called always runs among shared scopes.
-/

namespace Lox

/-- Is the expression a function expression? -/
def Expr.isFunction : Expr → Bool
  | function _ _ _ => true
  | _ => false

/-- Is the statement a declaration of functions or methods? -/
def Stmt.isFunction : Stmt → Bool
  | function _ | classDecl _ _ _ _ => true
  | _ => false

/-- There is no function expression in the expression. -/
inductive Expr.ClosureFree : Expr → Prop
  | intro {e : Expr} :
      e.isFunction = false →
      (∀ part ∈ e.parts, Expr.ClosureFree part) →
      Expr.ClosureFree e

/-- There is no function expression and no declaration of a function or class in the statement. -/
inductive Stmt.ClosureFree : Stmt → Prop
  | intro {s : Stmt} :
      s.isFunction = false →
      (∀ e ∈ s.expressions, e.ClosureFree) →
      (∀ t ∈ s.branches ++ s.inner ++ s.loopBody?.toList, Stmt.ClosureFree t) →
      Stmt.ClosureFree s

namespace Level

/-- May the expression be evaluated at the level? -/
def AllowsExpr (l : Level) (e : Expr) : Prop :=
  l = .inner → e.ClosureFree

/-- May the statement be executed at the level? -/
def AllowsStmt (l : Level) (s : Stmt) : Prop :=
  l = .inner → s.ClosureFree

variable {l : Level}

theorem allowsExpr_shared (e : Expr) : Level.shared.AllowsExpr e :=
  fun h => Level.noConfusion h

theorem allowsStmt_shared (s : Stmt) : Level.shared.AllowsStmt s :=
  fun h => Level.noConfusion h

namespace AllowsExpr

variable {e : Expr}

theorem part {part : Expr} (h : l.AllowsExpr e) (hpart : part ∈ e.parts) :
    l.AllowsExpr part := by
  intro hl
  cases h hl with
  | intro _ hparts => exact hparts part hpart

/-- A function is made only where scopes are shared. -/
theorem eq_shared (h : l.AllowsExpr e) (he : e.isFunction = true) : l = .shared := by
  cases l with
  | shared => rfl
  | inner =>
      cases h rfl with
      | intro hfree _ => simp [he] at hfree

end AllowsExpr

namespace AllowsStmt

variable {s t : Stmt}

theorem expression {e : Expr} (h : l.AllowsStmt s) (he : e ∈ s.expressions) :
    l.AllowsExpr e := by
  intro hl
  cases h hl with
  | intro _ hexpressions _ => exact hexpressions e he

theorem within
    (h : l.AllowsStmt s)
    (ht : t ∈ s.branches ++ s.inner ++ s.loopBody?.toList) :
    l.AllowsStmt t := by
  intro hl
  cases h hl with
  | intro _ _ hstatements => exact hstatements t ht

theorem eq_shared (h : l.AllowsStmt s) (hs : s.isFunction = true) : l = .shared := by
  cases l with
  | shared => rfl
  | inner =>
      cases h rfl with
      | intro hfree _ _ => simp [hs] at hfree

end AllowsStmt

end Level

/-- The evaluator is equivariant on all code that a level allows. -/
structure Evaluator.Equivariant (g : Evaluator) : Prop where
  evaluate : ∀ {l e}, Level.AllowsExpr l e → Eval.Equivariant l (g.evaluate e)
  execute : ∀ {l s}, Level.AllowsStmt l s → Eval.Equivariant l (g.execute s)
  run : ∀ body, Eval.Equivariant .shared (g.run body)

namespace Evaluator.Equivariant

open Eval (Parallel Ends)
open Eval.Equivariant (bind ask fail stop)
open Machine (Abreast)

variable {g : Evaluator} {l : Level}

section Blocks

theorem executeAll
    (hg : g.Equivariant)
    (statements : List Stmt)
    (hstatements : ∀ s ∈ statements, l.AllowsStmt s) :
    Eval.Equivariant l (Eval.executeAll g statements) := by
  induction statements with
  | nil => exact .pure _
  | cons s rest ih =>
      refine bind (hg.execute (hstatements s (by simp))) fun signal => ?_
      cases signal with
      | normal => exact ih fun t ht => hstatements t (by simp [ht])
      | returned | broke | continued | thrown => exact .pure _

theorem executeBlock
    (hg : g.Equivariant)
    (statements : List Stmt)
    (bindings : List Binding)
    (hstatements : ∀ s ∈ statements, l.AllowsStmt s) :
    Eval.Equivariant l (Eval.executeBlock g statements bindings) :=
  (hg.executeAll statements hstatements).inInnerScope bindings

theorem evaluateAll
    (hg : g.Equivariant)
    (es : List Expr)
    (hes : ∀ e ∈ es, l.AllowsExpr e) :
    Eval.Equivariant l (Eval.evaluateAll g es) := by
  induction es with
  | nil => exact .pure _
  | cons e rest ih =>
      refine bind (hg.evaluate (hes e (by simp))) fun _ => bind ?_ fun _ => .pure _
      exact ih fun e he => hes e (by simp [he])

end Blocks

section Calls

theorem callResult (signal : Signal) : Eval.Equivariant l (Eval.callResult signal) := by
  cases signal with
  | thrown t => exact stop _
  | normal | returned | broke | continued => exact .pure _

/-- The body of a function runs among shared scopes, wherever it is called. -/
theorem runBody
    {W : Pairing} {a b : ScopeId}
    (hg : g.Equivariant)
    (hab : W.shared a b)
    (params : List String)
    (body : List Stmt)
    (arguments : List Value) :
    Parallel l W (Eval.runBody g params body a arguments)
      (Eval.runBody g params body b arguments) := by
  refine Parallel.bind (.of_ends fun V m m' hwithin hm => ?_) fun signal => callResult signal W
  rw [Eval.inNewScope_apply, Eval.inNewScope_apply]
  exact (hg.run body).enter hm (hwithin.shared hab) _

/-- `this` is bound in a scope of its own, which the scope of the parameters is in. -/
theorem runMethodObject
    {W : Pairing} {m m' : Machine} {f f' : MethodObject}
    (hg : g.Equivariant)
    (hm : m.Abreast l W m')
    (hf : f.Paired W.shared f')
    (receiver : InstanceId)
    (arguments : List Value) :
    Ends l W
      (Eval.runBody g f.params f.body (m.newScope f.scope).1 arguments
        (m.bindThis f.scope receiver))
      (Eval.runBody g f'.params f'.body (m'.newScope f'.scope).1 arguments
        (m'.bindThis f'.scope receiver)) := by
  have hparams : f'.params = f.params := by rw [hf.rest]
  have hbody : f'.body = f.body := by rw [hf.rest]
  rw [hparams, hbody]
  have hscope : W.pairs .shared f.scope f'.scope := hf.scope
  have hwithin := W.within_add .shared m.scopes.all.size m'.scopes.all.size
  refine Ends.mono (hg.runBody (W.pairs_add .shared ..) _ _ _ _ _ (Abreast.later ?_)) hwithin
  rw [Machine.bindThis_eq, Machine.bindThis_eq]
  exact ⟨hm.paired.create hscope _ _ _, hwithin.pairs hm.current⟩

theorem runMethod
    (hg : g.Equivariant)
    (receiver : InstanceId)
    (method : MethodId)
    (arguments : List Value) :
    Eval.Equivariant l (Eval.runMethod g receiver method arguments) := by
  refine .of_ends fun W m m' hm => ?_
  rcases hm.paired.methods.none_or_some method with ⟨hf, hf'⟩ | ⟨f, f', hf, hf', hpaired⟩
  · simp only [Eval.runMethod, Eval.bind_apply, Eval.ask, Outcome.andThen, hf, hf']
    exact .done trivial hm.later
  · have hinitializer : f'.isInitializer = f.isInitializer := by
      rw [hpaired.rest]
    rw [Simulation.runMethod_apply g receiver arguments hf,
      Simulation.runMethod_apply g receiver arguments hf', hinitializer]
    refine (hg.runMethodObject hm hpaired receiver arguments).andThen (fun _ _ h => h) ?_
    exact fun _ _ _ _ hn => .done trivial hn

theorem runFunction (hg : g.Equivariant) (id : FunctionId) (arguments : List Value) :
    Eval.Equivariant l (Eval.runFunction g id arguments) := by
  refine .of_ends fun W m m' hm => ?_
  simp only [Eval.runFunction, Eval.bind_apply, Eval.ask, Outcome.andThen]
  refine hm.paired.functions.cases id (.done trivial hm.later) fun f f' hf => ?_
  cases hf with
  | closure hab => exact hg.runBody hab _ _ _ _ _ hm.later
  | bound => exact (hg.runMethod _ _ _).ends hm

theorem construct (hg : g.Equivariant) (classId : ClassId) (arguments : List Value) :
    Eval.Equivariant l (Eval.construct g classId arguments) := by
  refine bind (Eval.Indifferent.equivariant fun _ _ => rfl) fun id => ?_
  refine bind (.findMethod? classId "init") fun found => ?_
  cases found with
  | none => exact .pure _
  | some method => exact bind (hg.runMethod id method arguments) fun _ => .pure _

theorem invoke (hg : g.Equivariant) (callee : Value) (arguments : List Value) :
    Eval.Equivariant l (Eval.invoke g callee arguments) := by
  cases callee with
  | function id => exact hg.runFunction id arguments
  | native id => exact .callNative id arguments
  | «class» id => exact hg.construct id arguments
  | nil | boolean | number | string | «instance» | list | map => exact .pure _

theorem callValue
    (hg : g.Equivariant)
    (limits : Limits)
    (callee : Value)
    (arguments : List Value)
    (site : Option Span) :
    Eval.Equivariant l (Eval.callValue limits g callee arguments site) := by
  refine bind (ask fun _ _ _ hm => hm.arity?_eq callee) fun arity => ?_
  cases arity with
  | none => exact fail _
  | some expected =>
      refine bind (ask fun _ _ _ hm => hm.calleeName_eq callee) fun name => ?_
      split
      · exact fail _
      · refine bind (Eval.Indifferent.ask fun _ _ => rfl).equivariant fun depth => ?_
        split
        · exact fail _
        · exact (hg.invoke callee arguments).inCall _

end Calls

section Expressions

theorem evaluateBinary
    (hg : g.Equivariant)
    {left right : Expr}
    (op : BinaryOp)
    (hleft : l.AllowsExpr left)
    (hright : l.AllowsExpr right) :
    Eval.Equivariant l (Eval.evaluateBinary g left op right) := by
  refine bind (hg.evaluate hleft) fun x => bind (hg.evaluate hright) fun y => ?_
  split
  · exact .pure _
  · exact stop _
  · exact stop _
  · exact fail _

theorem addEntries
    (hg : g.Equivariant)
    (map : MapId)
    (entries : List MapEntry)
    (hentries : ∀ e ∈ entries.flatMap MapEntry.parts, l.AllowsExpr e) :
    Eval.Equivariant l (Eval.addEntries g map entries) := by
  induction entries with
  | nil => exact .pure _
  | cons entry rest ih =>
      obtain ⟨key, value⟩ := entry
      simp only [List.flatMap_cons, MapEntry.parts, List.cons_append, List.nil_append,
        List.mem_cons] at hentries
      refine bind (hg.evaluate (hentries key (by simp))) fun k => ?_
      refine bind (hg.evaluate (hentries value (by simp))) fun v => ?_
      refine bind (Eval.Equivariant.locating (.setItem _ k v) key.span) fun _ => ?_
      exact ih fun e he => hentries e (by simp [he])

theorem evaluateStep
    (hg : g.Equivariant)
    (limits : Limits)
    {e : Expr}
    (he : l.AllowsExpr e) :
    Eval.Equivariant l (Eval.evaluateStep limits g e) := by
  refine Eval.Equivariant.locating ?_ e.span
  cases e with
  | literal value span => exact .pure _
  | reference name span => exact .lookup name
  | assign name value span =>
      refine bind (hg.evaluate (he.part (by simp [Expr.parts]))) fun v => ?_
      exact bind (.assign name v) fun _ => .pure _
  | binary left op right span =>
      exact hg.evaluateBinary op (he.part (by simp [Expr.parts]))
        (he.part (by simp [Expr.parts]))
  | unary op operand span =>
      refine bind (hg.evaluate (he.part (by simp [Expr.parts]))) fun v => ?_
      exact .ofExcept (op.apply v)
  | logical left op right span =>
      refine bind (hg.evaluate (he.part (by simp [Expr.parts]))) fun x => ?_
      split
      · exact .pure _
      · exact hg.evaluate (he.part (by simp [Expr.parts]))
  | conditional condition thenBranch elseBranch span =>
      refine bind (hg.evaluate (he.part (by simp [Expr.parts]))) fun c => ?_
      split
      · exact hg.evaluate (he.part (by simp [Expr.parts]))
      · exact hg.evaluate (he.part (by simp [Expr.parts]))
  | call callee arguments span =>
      refine bind (hg.evaluate (he.part (by simp [Expr.parts]))) fun f => ?_
      refine bind (hg.evaluateAll arguments fun x hx => he.part (by simp [Expr.parts, hx]))
        fun vs => ?_
      exact hg.callValue limits f vs (some span)
  | get object name span =>
      refine bind (hg.evaluate (he.part (by simp [Expr.parts]))) fun o => ?_
      exact .property o name
  | set object name value span =>
      refine bind (hg.evaluate (he.part (by simp [Expr.parts]))) fun o => ?_
      cases o with
      | «instance» id =>
          refine bind (hg.evaluate (he.part (by simp [Expr.parts]))) fun v => ?_
          exact bind (.setField id name v) fun _ => .pure _
      | nil | boolean | number | string | function | native | «class» | list | map =>
          exact fail _
  | this span => exact .lookup "this"
  | super method span => exact .evaluateSuper method
  | list elements span =>
      refine bind (hg.evaluateAll elements fun x hx => he.part (by simp [Expr.parts, hx]))
        fun vs => ?_
      exact .newList vs
  | map entries span =>
      refine bind .newMap fun v => ?_
      cases v with
      | map id =>
          exact bind (hg.addEntries id entries fun x hx => he.part hx) fun _ => .pure _
      | nil | boolean | number | string | function | native | «class» | «instance» | list =>
          exact .pure _
  | index object key span =>
      refine bind (hg.evaluate (he.part (by simp [Expr.parts]))) fun o => ?_
      refine bind (hg.evaluate (he.part (by simp [Expr.parts]))) fun i => ?_
      exact .item o i
  | indexSet object key value span =>
      refine bind (hg.evaluate (he.part (by simp [Expr.parts]))) fun o => ?_
      refine bind (hg.evaluate (he.part (by simp [Expr.parts]))) fun i => ?_
      refine bind (hg.evaluate (he.part (by simp [Expr.parts]))) fun v => ?_
      exact .setItem o i v
  | function params body span =>
      obtain rfl := he.eq_shared rfl
      exact .makeClosure "lambda" params body

end Expressions

section Loops

variable {condition : Expr} {body : Stmt}

theorem loopBody (hg : g.Equivariant) (hbody : l.AllowsStmt body) :
    Eval.Equivariant l (Eval.loopBody g body) :=
  hg.executeBlock [body] [] (by simpa using hbody)

theorem whileIterations
    (hg : g.Equivariant)
    (hcondition : l.AllowsExpr condition)
    (hbody : l.AllowsStmt body)
    (fuel : Nat) :
    Eval.Equivariant l (Eval.whileIterations g condition body fuel) := by
  induction fuel with
  | zero => exact stop _
  | succ fuel ih =>
      refine bind (hg.evaluate hcondition) fun c => ?_
      split
      · refine bind (hg.loopBody hbody) fun signal => ?_
        cases signal with
        | normal => exact ih
        | continued => exact ih
        | broke | returned | thrown => exact .pure _
      · exact .pure _

theorem doWhile
    (hg : g.Equivariant)
    (hcondition : l.AllowsExpr condition)
    (hbody : l.AllowsStmt body)
    (fuel : Nat) :
    Eval.Equivariant l (Eval.doWhile g condition body fuel) := by
  refine bind (hg.loopBody hbody) fun signal => ?_
  cases signal with
  | normal => exact hg.whileIterations hcondition hbody fuel
  | continued => exact hg.whileIterations hcondition hbody fuel
  | broke | returned | thrown => exact .pure _

variable {initial : Option Stmt} {condition increment : Option Expr}

theorem holds (hg : g.Equivariant) (hcondition : ∀ e ∈ condition, l.AllowsExpr e) :
    Eval.Equivariant l (Eval.holds g condition) := by
  cases condition with
  | none => exact .pure _
  | some e => exact bind (hg.evaluate (hcondition e rfl)) fun _ => .pure _

theorem advance
    (hg : g.Equivariant)
    (hincrement : ∀ e ∈ increment, l.AllowsExpr e)
    (isFirst : Bool) :
    Eval.Equivariant l (Eval.advance g isFirst increment) := by
  cases increment with
  | none => cases isFirst <;> exact .pure _
  | some e =>
      cases isFirst with
      | true => exact .pure _
      | false => exact bind (hg.evaluate (hincrement e rfl)) fun _ => .pure _

theorem executeOptional
    (hg : g.Equivariant)
    (hinitial : ∀ s ∈ initial, l.AllowsStmt s) :
    Eval.Equivariant l (Eval.executeOptional g initial) := by
  cases initial with
  | none => exact .pure _
  | some s => exact hg.execute (hinitial s rfl)

/-- Copies of corresponding scopes correspond. -/
theorem enterCopy
    {W : Pairing} {m m' : Machine} {a b : ScopeId}
    (hm : m.Abreast l W m')
    (hab : W.pairs l a b) :
    (m.enterCopy a).Abreast l (W.add l m.scopes.all.size m'.scopes.all.size) (m'.enterCopy b) := by
  have hscopes := hm.paired.scopes
  have hrange := hscopes.inRange (Pairing.pairs_inner hab)
  refine ⟨hm.paired.of_scopes (W.within_add ..).shared (hscopes.create ?_ ?_) _ _, W.pairs_add ..⟩
  · exact hscopes.bindings (Pairing.pairs_inner hab)
  · exact (hscopes.linked hab).mono (fun hpq _ => hpq) (Nat.le_of_lt hrange.1)
      (Nat.le_of_lt hrange.2)

theorem forIterations
    (hg : g.Equivariant)
    (hcondition : ∀ e ∈ condition, l.AllowsExpr e)
    (hincrement : ∀ e ∈ increment, l.AllowsExpr e)
    (hbody : l.AllowsStmt body)
    (fuel : Nat)
    (isFirst : Bool)
    (W : Pairing)
    (a b : ScopeId)
    (hab : W.pairs l a b) :
    Parallel l W (Eval.forIterations g condition increment body fuel isFirst a)
      (Eval.forIterations g condition increment body fuel isFirst b) := by
  induction fuel generalizing isFirst W a b with
  | zero => exact stop _ W
  | succ fuel ih =>
      refine .of_ends fun V m m' hwithin hm => ?_
      have hcopy := enterCopy hm (hwithin.pairs hab)
      have hnext := ih false _ _ _ (V.pairs_add l m.scopes.all.size m'.scopes.all.size)
      refine Ends.mono (Parallel.bind (hg.advance hincrement isFirst _) (fun _ => ?_) _ _
        hcopy.later) (V.within_add ..)
      refine Parallel.bind (hg.holds hcondition _) fun c => ?_
      split
      · refine Parallel.bind (hg.loopBody hbody _) fun signal => ?_
        cases signal with
        | normal => exact hnext
        | continued => exact hnext
        | broke | returned | thrown => exact .pure _
      · exact .pure _

theorem executeFor
    (hg : g.Equivariant)
    (hinitial : ∀ s ∈ initial, l.AllowsStmt s)
    (hcondition : ∀ e ∈ condition, l.AllowsExpr e)
    (hincrement : ∀ e ∈ increment, l.AllowsExpr e)
    (hbody : l.AllowsStmt body)
    (fuel : Nat) :
    Eval.Equivariant l (Eval.executeFor g initial condition increment body fuel) := by
  refine Eval.Equivariant.inInnerScope (bind (hg.executeOptional hinitial) fun signal => ?_) []
  cases signal with
  | normal => exact .inPlace (hg.forIterations hcondition hincrement hbody fuel true)
  | returned | broke | continued | thrown => exact .pure _

end Loops

section Statements

theorem evaluateOptional
    (hg : g.Equivariant)
    {value : Option Expr}
    (hvalue : ∀ e ∈ value, l.AllowsExpr e) :
    Eval.Equivariant l (Eval.evaluateOptional g value) := by
  cases value with
  | none => exact .pure _
  | some e => exact hg.evaluate (hvalue e rfl)

theorem declareClass
    (hg : g.Equivariant)
    (name : String)
    (superclass : Option (String × Span))
    (methods : List FunctionDecl) :
    Eval.Equivariant .shared (Eval.declareClass g name superclass methods) := by
  refine bind ?_ fun parent => .defineClass name parent methods
  cases superclass with
  | none => exact .pure _
  | some superclass =>
      refine bind (hg.evaluate (Level.allowsExpr_shared _)) fun v => ?_
      cases v with
      | «class» id => exact .pure _
      | nil | boolean | number | string | function | native | «instance» | list | map =>
          exact stop _

theorem executeHandler
    (hg : g.Equivariant)
    {handler : Option CatchClause}
    (hhandler : ∀ s ∈ handler.toList.flatMap CatchClause.body, l.AllowsStmt s)
    (signal : Signal) :
    Eval.Equivariant l (Eval.executeHandler g handler signal) := by
  cases handler with
  | none => cases signal <;> exact .pure _
  | some clause =>
      obtain ⟨name, body⟩ := clause
      cases signal with
      | thrown t =>
          exact hg.executeBlock _ _ fun s hs => hhandler s (by simpa [CatchClause.body] using hs)
      | normal | returned | broke | continued => exact .pure _

theorem executeTry
    (hg : g.Equivariant)
    {body : List Stmt} {handler : Option CatchClause} {cleanup : Option (List Stmt)}
    (hbody : ∀ s ∈ body, l.AllowsStmt s)
    (hhandler : ∀ s ∈ handler.toList.flatMap CatchClause.body, l.AllowsStmt s)
    (hcleanup : ∀ statements ∈ cleanup, ∀ s ∈ statements, l.AllowsStmt s) :
    Eval.Equivariant l (Eval.executeTry g body handler cleanup) := by
  refine bind (hg.executeBlock body [] hbody) fun first => ?_
  refine bind (hg.executeHandler hhandler first) fun signal => ?_
  cases cleanup with
  | none => exact .pure _
  | some statements =>
      refine bind (hg.executeBlock statements [] (hcleanup statements rfl)) fun last => ?_
      cases last <;> exact .pure _

theorem executeStep
    (hg : g.Equivariant)
    (limits : Limits)
    {s : Stmt}
    (hs : l.AllowsStmt s) :
    Eval.Equivariant l (Eval.executeStep limits g s) := by
  refine Eval.Equivariant.settle ?_ limits.catchFaults s.span
  cases s with
  | expression e span =>
      refine bind (hg.evaluate (hs.expression (by simp [Stmt.expressions]))) fun v => ?_
      exact bind (Eval.Indifferent.update fun _ _ => rfl).equivariant fun _ => .pure _
  | print e span =>
      refine bind (hg.evaluate (hs.expression (by simp [Stmt.expressions]))) fun v => ?_
      exact bind (.text v) fun line => bind (.printLine line) fun _ => .pure _
  | declare name initial isConst span =>
      refine bind (hg.evaluateOptional fun e he => hs.expression ?_) fun v => ?_
      · simpa [Stmt.expressions] using he
      · exact bind (.define name v isConst) fun _ => .pure _
  | block statements span =>
      exact hg.executeBlock statements [] fun t ht => hs.within (by simp [Stmt.inner, ht])
  | ifElse condition thenBranch elseBranch span =>
      refine bind (hg.evaluate (hs.expression (by simp [Stmt.expressions]))) fun c => ?_
      split
      · exact hg.execute (hs.within (by simp [Stmt.branches]))
      · cases elseBranch with
        | none => exact .pure _
        | some t => exact hg.execute (hs.within (by simp [Stmt.branches]))
  | whileLoop condition body span =>
      exact hg.whileIterations (hs.expression (by simp [Stmt.expressions]))
        (hs.within (by simp [Stmt.loopBody?])) limits.fuel
  | doWhile body condition span =>
      exact hg.doWhile (hs.expression (by simp [Stmt.expressions]))
        (hs.within (by simp [Stmt.loopBody?])) limits.fuel
  | forLoop initial condition increment body span =>
      refine hg.executeFor (fun t ht => hs.within ?_) (fun e he => hs.expression ?_)
        (fun e he => hs.expression ?_) (hs.within ?_) limits.fuel
      · simp_all [Stmt.inner]
      · simp_all [Stmt.expressions]
      · simp_all [Stmt.expressions]
      · simp [Stmt.loopBody?]
  | breakLoop span => exact .pure _
  | continueLoop span => exact .pure _
  | function d =>
      obtain rfl := hs.eq_shared rfl
      exact .declareFunction d
  | returnValue value span =>
      refine bind (hg.evaluateOptional fun e he => hs.expression ?_) fun v => .pure _
      simpa [Stmt.expressions] using he
  | classDecl name superclass methods span =>
      obtain rfl := hs.eq_shared rfl
      exact hg.declareClass name superclass methods
  | tryBlock body handler cleanup span =>
      refine hg.executeTry (fun t ht => hs.within ?_) (fun t ht => hs.within ?_)
        (fun statements hstatements t ht => hs.within ?_)
      · simp [Stmt.inner, ht]
      · simp only [Stmt.inner, List.mem_append]
        exact .inl (.inr (.inl (.inr ht)))
      · simp_all [Stmt.inner]
  | throwValue value span =>
      refine bind (hg.evaluate (hs.expression (by simp [Stmt.expressions]))) fun v => ?_
      exact bind (Eval.Indifferent.ask fun _ _ => rfl).equivariant fun _ => .pure _
  | dump span => exact .dumpBindings

end Statements

end Evaluator.Equivariant

/-- **Scope numbers do not matter.** Where scopes are shared all code is equivariant, and code that
makes no functions is equivariant everywhere. -/
theorem Evaluator.equivariant_ofRoom (limits : Limits) (room : Nat) :
    (Evaluator.ofRoom limits room).Equivariant := by
  induction room with
  | zero => exact ⟨fun _ => .stop _, fun _ => .stop _, fun _ => .stop _⟩
  | succ room ih =>
      exact ⟨ih.evaluateStep limits, ih.executeStep limits,
        fun body => ih.executeAll body fun s _ => Level.allowsStmt_shared s⟩

end Lox
