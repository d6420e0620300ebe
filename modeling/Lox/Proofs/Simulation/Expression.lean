import Lox.Proofs.Simulation.Bracket

/-!
# Calls and expressions under a simulation

Evaluators that agree on all code that may run, `Simulation.Evaluates`, agree on all calls.
Evaluators that agree on the parts of an expression agree on the expression.
-/

namespace Lox

section Calls

namespace Simulation

open Eval

variable {code : Discipline} (S : Simulation code)

/-- The two evaluators agree on all code that may run. -/
structure Evaluates (g g' : Evaluator) : Prop where
  evaluate : ∀ {k p e}, code.expr k e → S.Keeps k p S.value (g.evaluate e) (g'.evaluate e)
  execute : ∀ {k p s}, code.stmt k s → S.Keeps k p (S.signal k) (g.execute s) (g'.execute s)
  run : ∀ {k p body}, code.body k body →
    S.Keeps k p (S.signal k) (g.run body) (g'.run body)

variable {S}
variable {k : code.Setting} {p : S.Place} {g g' : Evaluator}

/-- Every fault stops a computation without a value. -/
theorem carries_failed (f : Failure) : Interruption.Carries S.value (.failed f) :=
  trivial

/-- The end of a call: the signal of the body becomes a value, or stops the computation. -/
theorem callResult_agree
    {l : code.Setting} {q : S.Place} {m m' : Machine} {o o' : Outcome Signal}
    (h : Outcome.Agree (S.rel l q) (S.signal l) (Interruption.Carries S.value) o o')
    (hS : S.Lawful)
    (hreturns : S.Returns k p m m' l q) :
    Outcome.Agree (S.rel k p) S.value (Interruption.Carries S.value)
      ((o.onMachine (·.leave m.current)).andThen callResult)
      ((o'.onMachine (·.leave m'.current)).andThen callResult) := by
  have hleave : ∀ n n', S.rel l q n n' → S.rel k p (n.leave m.current) (n'.leave m'.current) :=
    fun n n' hn => hreturns q n n' (hS.beside_refl q) hn
  cases h with
  | stopped hw hn => exact .stopped hw (hleave _ _ hn)
  | @done sig n n' hsig hn =>
      have hn := hleave n n' hn
      cases sig with
      | normal => exact .done (hS.value_plain rfl) hn
      | returned v => exact .done hsig.2 hn
      | broke => exact .done (hS.value_plain rfl) hn
      | continued => exact .done (hS.value_plain rfl) hn
      | thrown t => exact .stopped hsig hn

theorem runBody_apply
    (g : Evaluator)
    (params : List String)
    (body : List Stmt)
    (scope : ScopeId)
    (arguments : List Value)
    (m : Machine) :
    runBody g params body scope arguments m =
      (((g.run body) (m.enter scope (parameterBindings params arguments))).onMachine
        (·.leave m.current)).andThen callResult := by
  rw [← inNewScope_apply]
  rfl

theorem runMethod_apply
    (g : Evaluator)
    {m : Machine} {method : MethodId} {f : MethodObject}
    (receiver : InstanceId)
    (arguments : List Value)
    (hf : m.methods[method]? = some f) :
    runMethod g receiver method arguments m =
      (runBody g f.params f.body (m.newScope f.scope).1 arguments
        (m.bindThis f.scope receiver)).andThen fun result =>
          pure (if f.isInitializer then .instance receiver else result) := by
  simp only [runMethod, bind_apply, ask, Outcome.andThen, hf]
  rfl

theorem runMethod_keeps
    (hS : S.Lawful)
    (hg : S.Evaluates g g')
    {receiver : InstanceId} {method : MethodId} {arguments : List Value}
    (hmethod : S.method method)
    (hreceiver : S.value (.instance receiver))
    (harguments : ∀ v ∈ arguments, S.value v) :
    S.Keeps k p S.value (runMethod g receiver method arguments)
      (runMethod g' receiver method arguments) := by
  intro m m' hm
  have hsame := hS.methods hmethod hm
  cases hf : m.methods[method]? with
  | none =>
      simp only [runMethod, bind_apply, ask, Outcome.andThen, ← hsame, hf]
      exact .done (hS.value_plain rfl) hm
  | some f =>
      obtain ⟨l, q, hbody, hq, hreturns⟩ :=
        hS.methodBody hmethod hreceiver hm hf harguments
      rw [runMethod_apply g receiver arguments hf,
        runMethod_apply g' receiver arguments (hsame ▸ hf), runBody_apply, runBody_apply]
      refine (callResult_agree (hg.run hbody _ _ hq) hS hreturns).andThen
        (fun _ _ hn => hn) fun result n n' hresult hn => ?_
      split
      · exact .done hreceiver hn
      · exact .done hresult hn

theorem runFunction_keeps
    (hS : S.Lawful)
    (hg : S.Evaluates g g')
    {id : FunctionId} {arguments : List Value}
    (hid : S.value (.function id))
    (harguments : ∀ v ∈ arguments, S.value v) :
    S.Keeps k p S.value (runFunction g id arguments) (runFunction g' id arguments) := by
  intro m m' hm
  have hsame := hS.function hid hm
  simp only [runFunction, bind_apply, ask, Outcome.andThen, ← hsame]
  cases hf : m.functions[id]? with
  | none => exact .done (hS.value_plain rfl) hm
  | some f =>
      cases f with
      | closure name params body scope =>
          obtain ⟨l, q, hbody, hq, hreturns⟩ := hS.closure hid hm hf harguments
          simp only [runBody_apply]
          exact callResult_agree (hg.run hbody _ _ hq) hS hreturns
      | bound receiver method =>
          obtain ⟨hreceiver, hmethod⟩ := hS.bound hid hm hf
          exact runMethod_keeps hS hg hmethod hreceiver harguments m m' hm

theorem construct_keeps
    (hS : S.Lawful)
    (hg : S.Evaluates g g')
    {id : ClassId} {arguments : List Value}
    (hid : S.value (.class id))
    (harguments : ∀ v ∈ arguments, S.value v) :
    S.Keeps k p S.value (construct g id arguments) (construct g' id arguments) := by
  refine Related.bind (V := fun i => S.value (.instance i)) (Related.make fun m m' hm => ?_)
    fun i hi => ?_
  · exact hS.newInstance hid hm
  refine Related.bind (V := fun found => ∀ method ∈ found, S.method method)
    (Related.ask fun m m' hm => hS.findMethod "init" hid hm) fun found hfound => ?_
  cases found with
  | none => exact Related.pure hi
  | some method =>
      exact Related.bind (runMethod_keeps hS hg (hfound method rfl) hi harguments)
        fun _ _ => Related.pure hi

theorem invoke_keeps
    (hS : S.Lawful)
    (hg : S.Evaluates g g')
    {callee : Value} {arguments : List Value}
    (hcallee : S.value callee)
    (harguments : ∀ v ∈ arguments, S.value v) :
    S.Keeps k p S.value (invoke g callee arguments) (invoke g' callee arguments) := by
  cases callee with
  | function id => exact runFunction_keeps hS hg hcallee harguments
  | native id => exact hS.native hcallee harguments
  | «class» id => exact construct_keeps hS hg hcallee harguments
  | nil | boolean b | number x | string s | «instance» id | list id | map id =>
      exact Related.pure (hS.value_plain rfl)

/-- Calls of a value that may be met end alike. -/
theorem callValue_keeps
    (limits : Limits)
    (hS : S.Lawful)
    (hg : S.Evaluates g g')
    {callee : Value} {arguments : List Value} {site : Option Span}
    (hcallee : S.value callee)
    (harguments : ∀ v ∈ arguments, S.value v) :
    S.Keeps k p S.value (callValue limits g callee arguments site)
      (callValue limits g' callee arguments site) := by
  refine Related.bind (V := fun _ => True)
    (Related.ask fun m m' hm => ⟨(hS.callee hcallee hm).1, trivial⟩) fun expected _ => ?_
  cases expected with
  | none => exact Related.stop trivial
  | some expected =>
      refine Related.bind (V := fun _ => True)
        (Related.ask fun m m' hm => ⟨(hS.callee hcallee hm).2, trivial⟩) fun name _ => ?_
      split
      · exact Related.stop trivial
      · refine Related.bind (V := fun _ => True)
          (Related.ask fun m m' hm => ⟨by rw [hS.frames hm], trivial⟩) fun depth _ => ?_
        split
        · exact Related.stop trivial
        · intro m m' hm
          obtain ⟨q, hq, hreturn⟩ := hS.call ⟨name, site⟩ hm
          rw [inCall_apply, inCall_apply]
          exact (invoke_keeps hS hg hcallee harguments _ _ hq).onMachine hreturn

end Simulation

end Calls

section Results

/-- Operators yield values that refer to no object. -/
theorem BinaryOp.onNumbers_isPlain
    {op : BinaryOp} {x y : Float} {v : Value}
    (h : op.onNumbers x y = .ok v) :
    v.isPlain = true := by
  cases op <;> simp only [onNumbers] at h <;> (try split at h) <;> cases h <;> rfl

theorem BinaryOp.apply_isPlain
    {op : BinaryOp} {left right v : Value}
    (h : op.apply left right = .ok v) :
    v.isPlain = true := by
  unfold BinaryOp.apply at h
  split at h
  · cases h; rfl
  · cases h; rfl
  · exact BinaryOp.onNumbers_isPlain h
  · cases h; rfl
  · cases h
  · cases h

theorem UnaryOp.apply_isPlain
    {op : UnaryOp} {operand v : Value}
    (h : op.apply operand = .ok v) :
    v.isPlain = true := by
  unfold UnaryOp.apply at h
  split at h
  · cases h; rfl
  · cases h; rfl
  · cases h

theorem Value.ofLiteral_isPlain (l : Literal) : (Value.ofLiteral l).isPlain = true := by
  cases l <;> rfl

end Results

namespace Simulation

open Eval

variable {code : Discipline} {S : Simulation code}
variable {k : code.Setting} {p : S.Place} {g g' : Evaluator}

theorem evaluateAll_keeps
    (hg : S.Evaluates g g')
    (es : List Expr)
    (hes : ∀ e ∈ es, code.expr k e) :
    S.Keeps k p (fun vs => ∀ v ∈ vs, S.value v) (evaluateAll g es) (evaluateAll g' es) := by
  induction es with
  | nil => exact Related.pure (by simp)
  | cons e rest ih =>
      have hfirst := hg.evaluate (k := k) (p := p) (hes e (by simp))
      have hrest := ih fun e he => hes e (by simp [he])
      refine Related.bind hfirst fun v hv => Related.bind hrest fun vs hvs => ?_
      exact Related.pure (by simpa using ⟨hv, hvs⟩)

theorem evaluateBinary_keeps
    (hS : S.Lawful)
    (hg : S.Evaluates g g')
    {left right : Expr} {op : BinaryOp}
    (hleft : code.expr k left)
    (hright : code.expr k right) :
    S.Keeps k p S.value (evaluateBinary g left op right) (evaluateBinary g' left op right) := by
  refine Related.bind (hg.evaluate hleft) fun l _ => ?_
  refine Related.bind (hg.evaluate hright) fun r _ => ?_
  cases h : op.apply l r with
  | ok v => exact Related.pure (hS.value_plain (BinaryOp.apply_isPlain h))
  | error fault => cases fault <;> exact Related.stop trivial

theorem addEntries_keeps
    (hS : S.Lawful)
    (hg : S.Evaluates g g')
    (hk : code.runs k)
    {map : MapId}
    (hmap : S.value (.map map))
    (entries : List MapEntry)
    (hentries : ∀ e ∈ entries.flatMap MapEntry.parts, code.expr k e) :
    S.Keeps k p (fun _ => True) (addEntries g map entries) (addEntries g' map entries) := by
  induction entries with
  | nil => exact Related.pure trivial
  | cons entry rest ih =>
      obtain ⟨key, value⟩ := entry
      simp only [List.flatMap_cons, MapEntry.parts, List.cons_append, List.nil_append,
        List.mem_cons] at hentries
      refine Related.bind (hg.evaluate (hentries key (by simp))) fun i hi => ?_
      refine Related.bind (hg.evaluate (hentries value (by simp))) fun v hv => ?_
      refine Related.bind ((hS.setItem hk hmap hi hv).locating carries_failed) fun _ _ => ?_
      exact ih fun e he => hentries e (by simp [he])

/-- **Expressions.** Evaluators that agree on all code agree on every expression by one step more.
-/
theorem evaluateStep_keeps
    (limits : Limits)
    (hS : S.Lawful)
    (hg : S.Evaluates g g')
    {e : Expr}
    (he : code.expr k e) :
    S.Keeps k p S.value (evaluateStep limits g e) (evaluateStep limits g' e) := by
  have hk := code.runs_expr he
  have hparts := code.expr_parts he
  refine Related.locating ?_ carries_failed
  cases e with
  | literal value span => exact Related.pure (hS.value_plain (Value.ofLiteral_isPlain value))
  | reference name span => exact hS.lookup he
  | assign name value span =>
      refine Related.bind (hg.evaluate (hparts value (by simp [Expr.parts]))) fun v hv => ?_
      exact Related.bind (hS.assign he hv) fun _ _ => Related.pure hv
  | binary left op right span =>
      exact evaluateBinary_keeps hS hg (hparts left (by simp [Expr.parts]))
        (hparts right (by simp [Expr.parts]))
  | unary op operand span =>
      refine Related.bind (hg.evaluate (hparts operand (by simp [Expr.parts]))) fun v _ => ?_
      exact Related.ofExcept (fun _ h => hS.value_plain (UnaryOp.apply_isPlain h)) carries_failed
  | logical left op right span =>
      refine Related.bind (hg.evaluate (hparts left (by simp [Expr.parts]))) fun l hl => ?_
      split
      · exact Related.pure hl
      · exact hg.evaluate (hparts right (by simp [Expr.parts]))
  | conditional condition thenBranch elseBranch span =>
      refine Related.bind (hg.evaluate (hparts condition (by simp [Expr.parts]))) fun v _ => ?_
      split
      · exact hg.evaluate (hparts thenBranch (by simp [Expr.parts]))
      · exact hg.evaluate (hparts elseBranch (by simp [Expr.parts]))
  | call callee arguments span =>
      refine Related.bind (hg.evaluate (hparts callee (by simp [Expr.parts]))) fun f hf => ?_
      refine Related.bind
        (evaluateAll_keeps hg arguments fun e he => hparts e (by simp [Expr.parts, he]))
        fun vs hvs => ?_
      exact callValue_keeps limits hS hg hf hvs
  | get object name span =>
      refine Related.bind (hg.evaluate (hparts object (by simp [Expr.parts]))) fun o ho => ?_
      exact hS.property name hk ho
  | set object name value span =>
      refine Related.bind (hg.evaluate (hparts object (by simp [Expr.parts]))) fun o ho => ?_
      cases o with
      | «instance» id =>
          refine Related.bind (hg.evaluate (hparts value (by simp [Expr.parts]))) fun v hv => ?_
          exact Related.bind (hS.setField name hk ho hv) fun _ _ => Related.pure hv
      | nil | boolean b | number x | string s | function id | native id | «class» id | list id
      | map id => exact Related.stop trivial
  | this span => exact hS.this he
  | super method span => exact hS.super he
  | list elements span =>
      refine Related.bind
        (evaluateAll_keeps hg elements fun e he => hparts e (by simp [Expr.parts, he]))
        fun vs hvs => ?_
      exact hS.newList hk hvs
  | map entries span =>
      refine Related.bind (hS.newMap hk) fun v hv => ?_
      cases v with
      | map id =>
          exact Related.bind (addEntries_keeps hS hg hk hv entries hparts) fun _ _ =>
            Related.pure hv
      | nil | boolean b | number x | string s | function id | native id | «class» id
      | «instance» id | list id => exact Related.pure hv
  | index object key span =>
      refine Related.bind (hg.evaluate (hparts object (by simp [Expr.parts]))) fun o ho => ?_
      refine Related.bind (hg.evaluate (hparts key (by simp [Expr.parts]))) fun i hi => ?_
      exact hS.item hk ho hi
  | indexSet object key value span =>
      refine Related.bind (hg.evaluate (hparts object (by simp [Expr.parts]))) fun o ho => ?_
      refine Related.bind (hg.evaluate (hparts key (by simp [Expr.parts]))) fun i hi => ?_
      refine Related.bind (hg.evaluate (hparts value (by simp [Expr.parts]))) fun v hv => ?_
      exact hS.setItem hk ho hi hv
  | function params body span => exact hS.makeClosure he

end Simulation

end Lox
