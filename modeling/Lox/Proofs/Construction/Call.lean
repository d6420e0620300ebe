import Lox.Proofs.Journal.Saga
import Lox.Proofs.Visit

/-!
# What calls come to

A call runs one body at most, at its end. The `Activation` of a function or method is the body that
its call runs, with what the call makes of the end of the body. `Dispatch` says of a computation that
it is settled at once or comes to an activation, so that all that it asks an evaluator is how this
body ends. Call expressions come to this once their parts are evaluated. Properties are read and set
without any call.
-/

namespace Lox

/-- The body that a call runs: the machine on which it starts, how the machine returns to where the
call was made, and the value of the call, given the one that the body returns. -/
structure Activation where
  body : List Stmt
  start : Machine
  leave : Machine → Machine
  result : Value → Value

namespace Activation

/-- How the call ends if the body ends like this. What the body throws is thrown by the call. -/
def outcome (a : Activation) : Outcome Signal → Outcome Value
  | .done (.thrown t) n => .stopped (.thrown t) (a.leave n)
  | .done (.returned v) n => .done (a.result v) (a.leave n)
  | .done _ n => .done (a.result .nil) (a.leave n)
  | .stopped why n => .stopped why (a.leave n)

/-- Inside one more call. -/
def inCall (a : Activation) : Activation :=
  { a with leave := fun n => (a.leave n).popFrame }

/-- With another value in the end. -/
def returning (a : Activation) (v : Value) : Activation :=
  { a with result := fun _ => v }

variable {a : Activation} {o : Outcome Signal} {v : Value} {n : Machine}

theorem outcome_inCall : a.inCall.outcome o = (a.outcome o).onMachine (·.popFrame) := by
  cases o with
  | done signal n => cases signal <;> rfl
  | stopped why n => rfl

theorem outcome_returning :
    (a.returning v).outcome o = (a.outcome o).andThen fun _ => pure v := by
  cases o with
  | done signal n => cases signal <;> rfl
  | stopped why n => rfl

/-- If the call has a value, then because its body has ended. -/
theorem of_outcome_done (h : a.outcome o = .done v n) :
    (∃ r, v = a.result r) ∧ n = a.leave o.machine := by
  cases o with
  | stopped why n' => cases h
  | done signal n' =>
      cases signal with
      | thrown t => cases h
      | normal | returned | broke | continued =>
          cases h
          exact ⟨⟨_, rfl⟩, rfl⟩

end Activation

/-- The call of a function that was made by a declaration or by a function expression. -/
def Machine.closureActivation
    (m : Machine)
    (params : List String)
    (body : List Stmt)
    (scope : ScopeId)
    (arguments : List Value) :
    Activation where
  body := body
  start := m.enter scope (parameterBindings params arguments)
  leave := (·.leave m.current)
  result v := v

/-- The call of a method on an instance, which an initializer returns. -/
def Machine.methodActivation
    (m : Machine)
    (f : MethodObject)
    (receiver : InstanceId)
    (arguments : List Value) :
    Activation where
  body := f.body
  start := (m.bindThis f.scope receiver).enter m.scopes.all.size
    (parameterBindings f.params arguments)
  leave := (·.leave m.current)
  result v := if f.isInitializer then .instance receiver else v

/-- The computation is settled at once, or it comes to an activation. -/
inductive Dispatch
    (f : Evaluator → Outcome Value)
    (settled : Outcome Value → Prop)
    (runs : Activation → Prop) :
    Prop
  | settled
      {o : Outcome Value}
      (ho : settled o)
      (h : ∀ g, f g = o)
  | runs
      {a : Activation}
      (ha : runs a)
      (h : ∀ g, f g = a.outcome (g.run a.body a.start))

namespace Dispatch

variable {f : Evaluator → Outcome Value}
variable {settled settled' : Outcome Value → Prop} {runs runs' : Activation → Prop}
variable {g : Evaluator} {q : Question} {n : Machine} {v : Value}

theorem mono
    (h : Dispatch f settled runs)
    (hsettled : ∀ o, settled o → settled' o)
    (hruns : ∀ a, runs a → runs' a) :
    Dispatch f settled' runs' := by
  cases h with
  | settled ho h => exact .settled (hsettled _ ho) h
  | runs ha h => exact .runs (hruns _ ha) h

/-- All that is asked is how the body ends. -/
theorem of_asks (h : Dispatch f settled runs) (hasks : Asks f g q n) :
    ∃ a, runs a ∧ q = .run a.body ∧ n = a.start ∧
      ∀ g, f g = a.outcome (g.run a.body a.start) := by
  obtain ⟨g', halike, hne⟩ := hasks
  cases h with
  | settled ho h => exact absurd ((h g).trans (h g').symm) hne
  | @runs a ha h =>
      by_cases heq : (.run a.body, a.start) = (q, n)
      · cases heq
        exact ⟨a, ha, rfl, rfl, h⟩
      · have hsame : g.run a.body a.start = g'.run a.body a.start :=
          Sum.inr.inj (halike (.run a.body) a.start heq)
        exact absurd ((h g).trans ((congrArg a.outcome hsame).trans (h g').symm)) hne

theorem of_done (h : Dispatch f settled runs) (hdone : f g = .done v n) :
    settled (.done v n) ∨
      ∃ a, runs a ∧ (∃ r, v = a.result r) ∧ n = a.leave (g.run a.body a.start).machine := by
  cases h with
  | settled ho h => exact .inl ((h g).symm.trans hdone ▸ ho)
  | @runs a ha h => exact .inr ⟨a, ha, Activation.of_outcome_done ((h g).symm.trans hdone)⟩

end Dispatch

namespace Eval

variable {m : Machine}

section Bodies

variable (g : Evaluator) (arguments : List Value)

theorem runBody_eq (params : List String) (body : List Stmt) (scope : ScopeId) :
    runBody g params body scope arguments m =
      (m.closureActivation params body scope arguments).outcome
        (g.run body (m.enter scope (parameterBindings params arguments))) := by
  rw [Simulation.runBody_apply]
  cases g.run body (m.enter scope (parameterBindings params arguments)) with
  | done signal n => cases signal <;> rfl
  | stopped why n => rfl

theorem runMethod_eq
    {method : MethodId}
    {f : MethodObject}
    (receiver : InstanceId)
    (hf : m.methods[method]? = some f) :
    runMethod g receiver method arguments m =
      (m.methodActivation f receiver arguments).outcome
        (g.run f.body (m.methodActivation f receiver arguments).start) := by
  have hstart : (m.bindThis f.scope receiver).enter (m.newScope f.scope).1
      (parameterBindings f.params arguments) =
        (m.methodActivation f receiver arguments).start := rfl
  rw [Simulation.runMethod_apply g receiver arguments hf, runBody_eq, hstart]
  cases g.run f.body (m.methodActivation f receiver arguments).start with
  | done signal n => cases signal <;> rfl
  | stopped why n => rfl

end Bodies

section Dispatches

variable {arguments : List Value}

/-- The call of a method that was bound to an instance. -/
theorem dispatch_bound
    {id : FunctionId}
    {receiver : InstanceId}
    {method : MethodId}
    (hf : m.functions[id]? = some (.bound receiver method)) :
    Dispatch (fun g => invoke g (.function id) arguments m)
      (fun o => o = .done .nil m ∧ m.methods[method]? = none)
      (fun a => ∃ f, m.methods[method]? = some f ∧ a = m.methodActivation f receiver arguments) := by
  have hrun (g : Evaluator) :
      invoke g (.function id) arguments m = runMethod g receiver method arguments m := by
    simp only [invoke, runFunction, bind_apply, ask, Outcome.andThen, hf]
  cases hmethod : m.methods[method]? with
  | none =>
      refine .settled ⟨rfl, rfl⟩ fun g => (hrun g).trans ?_
      simp only [runMethod, bind_apply, ask, Outcome.andThen, hmethod]
      rfl
  | some f =>
      exact .runs ⟨f, rfl, rfl⟩ fun g => (hrun g).trans (runMethod_eq g arguments receiver hmethod)

/-- A class makes an instance and runs the initializer that is found. -/
theorem invoke_class_of_found
    {classId : ClassId}
    {method : MethodId}
    {f : MethodObject}
    (g : Evaluator)
    (hfound : (m.newInstance classId).2.findMethod? classId "init" = some method)
    (hf : m.methods[method]? = some f) :
    let a := ((m.newInstance classId).2.methodActivation f m.instances.size arguments).returning
      (.instance m.instances.size)
    invoke g (.class classId) arguments m = a.outcome (g.run a.body a.start) := by
  intro a
  have hmethod : (m.newInstance classId).2.methods[method]? = some f := hf
  have hconstruct : invoke g (.class classId) arguments m =
      (runMethod g m.instances.size method arguments (m.newInstance classId).2).andThen fun _ =>
        pure (.instance m.instances.size) := by
    simp only [invoke, construct, bind_apply, make, ask, Outcome.andThen, hfound]
    rfl
  rw [hconstruct, runMethod_eq g arguments m.instances.size hmethod, ← Activation.outcome_returning]
  rfl

/-- The instance that a class makes is new, and it is what the call of the class gives. -/
theorem dispatch_construct (classId : ClassId) :
    Dispatch (fun g => invoke g (.class classId) arguments m)
      (fun o => o = .done (.instance m.instances.size) (m.newInstance classId).2)
      (fun a => ∃ (method : MethodId) (f : MethodObject), m.methods[method]? = some f ∧
        a = ((m.newInstance classId).2.methodActivation f m.instances.size arguments).returning
          (.instance m.instances.size)) := by
  cases hfound : (m.newInstance classId).2.findMethod? classId "init" with
  | none =>
      refine .settled rfl fun g => ?_
      simp only [invoke, construct, bind_apply, make, ask, Outcome.andThen, hfound]
      rfl
  | some method =>
      cases hmethod : (m.newInstance classId).2.methods[method]? with
      | none =>
          refine .settled rfl fun g => ?_
          simp only [invoke, construct, runMethod, bind_apply, make, ask, Outcome.andThen, hfound,
            hmethod]
          rfl
      | some f => exact .runs ⟨method, f, hmethod, rfl⟩ fun g => invoke_class_of_found g hfound hmethod

theorem dispatch_invoke (callee : Value) :
    Dispatch (fun g => invoke g callee arguments m) (fun _ => True) (fun _ => True) := by
  cases callee with
  | function id =>
      cases hf : m.functions[id]? with
      | none =>
          refine .settled (o := .done .nil m) trivial fun g => ?_
          simp only [invoke, runFunction, bind_apply, ask, Outcome.andThen, hf]
          rfl
      | some f =>
          cases f with
          | closure name params body scope =>
              refine .runs (a := m.closureActivation params body scope arguments) trivial fun g => ?_
              simp only [invoke, runFunction, bind_apply, ask, Outcome.andThen, hf]
              exact runBody_eq g arguments params body scope
          | bound receiver method => exact (dispatch_bound hf).mono (fun _ _ => trivial) fun _ _ => trivial
  | native id => exact .settled trivial fun _ => rfl
  | «class» id => exact (dispatch_construct id).mono (fun _ _ => trivial) fun _ _ => trivial
  | nil | boolean | number | string | «instance» | list | map => exact .settled trivial fun _ => rfl

/-- What can be called with these arguments is called. -/
theorem callValue_apply
    {limits : Limits}
    {callee : Value}
    (g : Evaluator)
    (site : Option Span)
    (harity : arity? m callee = some arguments.length)
    (hdepth : m.frames.length < limits.maxCallDepth) :
    callValue limits g callee arguments site m =
      (invoke g callee arguments (m.pushFrame ⟨calleeName m callee, site⟩)).onMachine
        (·.popFrame) := by
  rw [← inCall_apply]
  simp only [callValue, bind_apply, ask, Outcome.andThen, harity, Nat.not_le.mpr hdepth, ne_eq,
    not_true_eq_false, if_false]

/-- What cannot be called is settled, too. -/
theorem dispatch_callValue
    {limits : Limits}
    {callee : Value}
    {site : Option Span}
    {settled : Outcome Value → Prop}
    {runs : Activation → Prop}
    (h : Dispatch (fun g => invoke g callee arguments (m.pushFrame ⟨calleeName m callee, site⟩))
      settled runs) :
    Dispatch (fun g => callValue limits g callee arguments site m)
      (fun o => (∃ why n, o = .stopped why n) ∨ ∃ o', settled o' ∧ o = o'.onMachine (·.popFrame))
      (fun a => ∃ a', runs a' ∧ a = a'.inCall) := by
  have hfails (fault : Fault)
      (hfail : ∀ g, callValue limits g callee arguments site m = fail fault m) :
      Dispatch (fun g => callValue limits g callee arguments site m)
        (fun o => (∃ why n, o = .stopped why n) ∨ ∃ o', settled o' ∧ o = o'.onMachine (·.popFrame))
        (fun a => ∃ a', runs a' ∧ a = a'.inCall) :=
    .settled (o := .stopped (.failed ⟨fault, none, []⟩) m) (.inl ⟨_, _, rfl⟩) hfail
  cases harity : arity? m callee with
  | none =>
      refine hfails (.notCallable callee.kind) fun g => ?_
      simp only [callValue, bind_apply, ask, Outcome.andThen, harity]
  | some expected =>
      by_cases hlength : arguments.length = expected
      · by_cases hdepth : limits.maxCallDepth ≤ m.frames.length
        · refine hfails (.callDepth limits.maxCallDepth) fun g => ?_
          simp only [callValue, bind_apply, ask, Outcome.andThen, harity, hlength, hdepth, ne_eq,
            not_true_eq_false, if_true, if_false]
        · have hcall (g : Evaluator) :=
            callValue_apply g site (hlength ▸ harity) (Nat.lt_of_not_le hdepth)
          cases h with
          | settled ho h =>
              exact .settled (.inr ⟨_, ho, rfl⟩) fun g => (hcall g).trans (congrArg _ (h g))
          | runs ha h =>
              refine .runs ⟨_, ha, rfl⟩ fun g => (hcall g).trans ?_
              rw [Activation.outcome_inCall]
              exact congrArg _ (h g)
      · refine hfails (.arity (calleeName m callee) expected arguments.length) fun g => ?_
        simp only [callValue, bind_apply, ask, Outcome.andThen, harity, hlength, ne_eq,
          not_false_eq_true, if_true]

section Values

variable {limits : Limits} {g : Evaluator} {site : Option Span} {q : Question} {v : Value}
variable {n : Machine}

/-- If the call of a class has a value, it is the new instance. It was made first, and then a method
was run on it, or none. -/
theorem callValue_class
    {classId : ClassId}
    (h : callValue limits g (.class classId) arguments site m = .done v n) :
    v = .instance m.instances.size ∧
      ∃ frame : Frame,
        let made := ((m.pushFrame frame).newInstance classId).2
        n = made.popFrame ∨
          ∃ (method : MethodId) (f : MethodObject), m.methods[method]? = some f ∧
            let a := made.methodActivation f m.instances.size arguments
            n = (a.leave (g.run a.body a.start).machine).popFrame := by
  rcases (dispatch_callValue (dispatch_construct classId)).of_done h with
    (⟨why, n', heq⟩ | ⟨o, rfl, heq⟩) | ⟨_, ⟨_, ⟨method, f, hf, rfl⟩, rfl⟩, ⟨r, heq⟩, hn⟩
  · cases heq
  · cases heq
    exact ⟨rfl, _, .inl rfl⟩
  · exact ⟨heq, _, .inr ⟨method, f, hf, hn⟩⟩

/-- The call of a class runs one method on the new instance, or none. -/
theorem asks_class
    {classId : ClassId}
    (h : Asks (fun g => callValue limits g (.class classId) arguments site m) g q n) :
    ∃ (method : MethodId) (f : MethodObject) (frame : Frame), m.methods[method]? = some f ∧
      q = .run f.body ∧
      n = (((m.pushFrame frame).newInstance classId).2.methodActivation f m.instances.size
        arguments).start := by
  obtain ⟨_, ⟨_, ⟨method, f, hf, rfl⟩, rfl⟩, rfl, rfl, -⟩ :=
    (dispatch_callValue (dispatch_construct classId)).of_asks h
  exact ⟨method, f, _, hf, rfl, rfl⟩

variable {id : FunctionId} {receiver : InstanceId} {method : MethodId} {f : MethodObject}

/-- If the call of an initializer has a value, it is the instance. -/
theorem callValue_initializer
    (hbound : m.functions[id]? = some (.bound receiver method))
    (hf : m.methods[method]? = some f)
    (hmarked : f.isInitializer = true)
    (h : callValue limits g (.function id) arguments site m = .done v n) :
    v = .instance receiver := by
  have hdispatch := @dispatch_bound (m.pushFrame ⟨calleeName m (.function id), site⟩) arguments _ _ _
    hbound
  rcases (dispatch_callValue hdispatch).of_done h with
    (⟨why, n', heq⟩ | ⟨o, ⟨-, hnone⟩, -⟩) | ⟨_, ⟨_, ⟨f', hf', rfl⟩, rfl⟩, ⟨r, heq⟩, -⟩
  · cases heq
  · exact absurd (hf.symm.trans hnone) nofun
  · obtain rfl : f = f' := Option.some.inj (hf.symm.trans hf')
    exact heq.trans (if_pos hmarked)

/-- The call of a bound method runs it on its instance. -/
theorem asks_bound
    (hbound : m.functions[id]? = some (.bound receiver method))
    (h : Asks (fun g => callValue limits g (.function id) arguments site m) g q n) :
    ∃ (f : MethodObject) (frame : Frame), m.methods[method]? = some f ∧ q = .run f.body ∧
      n = ((m.pushFrame frame).methodActivation f receiver arguments).start := by
  have hdispatch := @dispatch_bound (m.pushFrame ⟨calleeName m (.function id), site⟩) arguments _ _ _
    hbound
  obtain ⟨_, ⟨_, ⟨f, hf, rfl⟩, rfl⟩, rfl, rfl, -⟩ := (dispatch_callValue hdispatch).of_asks h
  exact ⟨f, _, hf, rfl, rfl⟩

/-- What stops the body of a call, or is thrown by it, stops the call. -/
theorem callValue_of_run
    {callee : Value}
    {body : List Stmt}
    (h : Asks (fun g => callValue limits g callee arguments site m) g (.run body) n) :
    (∀ t n', g.run body n = .done (.thrown t) n' →
      ∃ n'', callValue limits g callee arguments site m = .stopped (.thrown t) n'') ∧
    ∀ why n', g.run body n = .stopped why n' →
      ∃ n'', callValue limits g callee arguments site m = .stopped why n'' := by
  obtain ⟨a, -, hrun, rfl, hcall⟩ := (dispatch_callValue (dispatch_invoke callee)).of_asks h
  obtain rfl := Question.run.inj hrun
  refine ⟨fun t n' ht => ⟨a.leave n', ?_⟩, fun why n' hwhy => ⟨a.leave n', ?_⟩⟩
  · rw [hcall, ht]
    rfl
  · rw [hcall, hwhy]
    rfl

end Values

end Dispatches

end Eval

/-- A field that is set has the value, and the others are as they were. -/
theorem Eval.lookup_putNamed
    {α : Type}
    (name other : String)
    (a : α)
    (fields : List (String × α)) :
    (putNamed name a fields).lookup other =
      if other = name then some a else fields.lookup other := by
  have hcons (key : String) (b : α) (rest : List (String × α)) :
      ((key, b) :: rest).lookup other = if other = key then some b else rest.lookup other := by
    by_cases h : other = key
    · simp [h]
    · simp [List.lookup_cons, h, beq_eq_false_iff_ne.mpr h]
  induction fields with
  | nil => exact hcons name a []
  | cons entry rest ih =>
      obtain ⟨key, b⟩ := entry
      by_cases hkey : key = name
      · simp only [putNamed, hkey, if_true, hcons]
        split <;> rfl
      · simp only [putNamed, hkey, if_false, hcons, ih]
        split
        · next h => rw [if_neg (h ▸ hkey)]
        · rfl

namespace Eval

variable {limits : Limits} {g : Evaluator} {m n : Machine} {v : Value} {span : Span}

theorem of_locating_done
    {α : Type}
    {c : Eval α}
    {a : α}
    (h : locating span c m = .done a n) :
    c m = .done a n := by
  unfold locating at h
  split at h
  · cases h
  · exact h

theorem locating_congr
    {α : Type}
    {c c' : Eval α}
    {m m' : Machine}
    (h : c m = c' m') :
    locating span c m = locating span c' m' := by
  unfold locating
  rw [h]

section Calls

variable {callee : Expr} {arguments : List Expr}

/-- Lists of expressions are evaluated alike if expressions are. -/
theorem evaluateAll_congr
    {g' : Evaluator}
    (h : g.evaluate = g'.evaluate)
    (es : List Expr) :
    evaluateAll g es = evaluateAll g' es := by
  induction es with
  | nil => rfl
  | cons e rest ih => simp only [evaluateAll, h, ih]

/-- Evaluate a callee and arguments, and call the one with the others. -/
def callParts
    (limits : Limits)
    (g : Evaluator)
    (callee : Expr)
    (arguments : List Expr)
    (site : Span) :
    Eval Value := do
  let f ← g.evaluate callee
  let vs ← evaluateAll g arguments
  callValue limits g f vs (some site)

/-- There is no call without a callee and arguments, whatever the bodies of functions do. -/
theorem callParts_cases (limits : Limits) (site : Span) (m : Machine) :
    (∃ f n₁ vs n₂, g.evaluate callee m = .done f n₁ ∧ evaluateAll g arguments n₁ = .done vs n₂ ∧
      ∀ g' : Evaluator, g.evaluate = g'.evaluate →
        callParts limits g' callee arguments site m = callValue limits g' f vs (some site) n₂) ∨
    ∃ why n, ∀ g' : Evaluator, g.evaluate = g'.evaluate →
      callParts limits g' callee arguments site m = .stopped why n := by
  cases hcallee : g.evaluate callee m with
  | stopped why n₁ =>
      refine .inr ⟨why, n₁, fun g' hg' => ?_⟩
      simp only [callParts, bind_apply, ← hg', hcallee, Outcome.andThen]
  | done f n₁ =>
      cases harguments : evaluateAll g arguments n₁ with
      | stopped why n₂ =>
          refine .inr ⟨why, n₂, fun g' hg' => ?_⟩
          simp only [callParts, bind_apply, ← hg', ← evaluateAll_congr hg', hcallee, harguments,
            Outcome.andThen]
      | done vs n₂ =>
          refine .inl ⟨f, n₁, vs, n₂, rfl, harguments, fun g' hg' => ?_⟩
          simp only [callParts, bind_apply, ← hg', ← evaluateAll_congr hg', hcallee, harguments,
            Outcome.andThen]

/-- A call that has a value is the call of the value of the callee. -/
theorem call_of_done
    (h : (Evaluator.deeper limits g).evaluate (.call callee arguments span) m = .done v n) :
    ∃ f n₁ vs n₂, g.evaluate callee m = .done f n₁ ∧ evaluateAll g arguments n₁ = .done vs n₂ ∧
      callValue limits g f vs (some span) n₂ = .done v n := by
  have hdone : callParts limits g callee arguments span m = .done v n := of_locating_done h
  rcases callParts_cases (g := g) limits span m with
    ⟨f, n₁, vs, n₂, hcallee, harguments, hcall⟩ | ⟨why, n', hstopped⟩
  · exact ⟨f, n₁, vs, n₂, hcallee, harguments, (hcall g rfl).symm.trans hdone⟩
  · rw [hstopped g rfl] at hdone
    cases hdone

/-- The body that a call runs is the one that the call of the value of the callee runs. -/
theorem call_of_asks
    {body : List Stmt}
    (h : Asks (fun g => (Evaluator.deeper limits g).evaluate (.call callee arguments span) m) g
      (.run body) n) :
    ∃ f n₁ vs n₂, g.evaluate callee m = .done f n₁ ∧ evaluateAll g arguments n₁ = .done vs n₂ ∧
      Asks (fun g => callValue limits g f vs (some span) n₂) g (.run body) n := by
  obtain ⟨g', halike, hne⟩ := h
  -- the evaluators differ in how the body ends, but not in what expressions evaluate to
  have hevaluate : g.evaluate = g'.evaluate :=
    funext fun e => funext fun m => Sum.inl.inj (halike (.evaluate e) m (by simp))
  rcases callParts_cases (g := g) limits span m with
    ⟨f, n₁, vs, n₂, hcallee, harguments, hcall⟩ | ⟨why, n', hstopped⟩
  · refine ⟨f, n₁, vs, n₂, hcallee, harguments, g', halike, fun heq => hne ?_⟩
    exact locating_congr (((hcall g rfl).trans heq).trans (hcall g' hevaluate).symm)
  · exact absurd (locating_congr ((hstopped g rfl).trans (hstopped g' hevaluate).symm)) hne

end Calls

section Properties

variable {object : Expr} {name : String} {id : InstanceId}

/-- A property of an instance is its own field or else a method of its class, bound to it. -/
theorem evaluate_get
    {i : InstanceObject}
    (hobject : g.evaluate object m = .done (.instance id) n)
    (hi : n.instances[id]? = some i) :
    (Evaluator.deeper limits g).evaluate (.get object name span) m =
      match i.fields.lookup name with
      | some v => .done v n
      | none =>
          match n.findMethod? i.classId name with
          | some method => .done (.function n.functions.size) (n.newFunction (.bound id method)).2
          | none =>
              let fault := Fault.undefinedProperty name s!"{n.className i.classId} instance"
              .stopped (.failed ⟨fault, some (span, fault.message), []⟩) n := by
  have hparts : (Evaluator.deeper limits g).evaluate (.get object name span) m =
      locating span (instanceProperty id name) n :=
    locating_congr (c := g.evaluate object >>= fun o => property o name) (by
      simp only [bind_apply, hobject, Outcome.andThen, property])
  have hmethod : n.instanceMethod? id name = n.findMethod? i.classId name := by
    simp only [Machine.instanceMethod?, hi, Option.bind_some]
  have howner : n.instanceClassName id = n.className i.classId := by
    simp only [Machine.instanceClassName, hi]
  rw [hparts]
  cases hfield : i.fields.lookup name with
  | some v =>
      simp only [locating, instanceProperty, bind_apply, ask, Outcome.andThen, hi, Option.bind_some,
        hfield]
      rfl
  | none =>
      simp only [locating, instanceProperty, bind_apply, ask, Outcome.andThen, hi, Option.bind_some,
        hfield, hmethod]
      cases n.findMethod? i.classId name with
      | some method => rfl
      | none =>
          simp only [bind_apply, ask, Outcome.andThen, howner]
          rfl

/-- What an assignment to a property comes to if it has a value. -/
theorem set_of_done
    {value : Expr}
    (h : (Evaluator.deeper limits g).evaluate (.set object name value span) m = .done v n) :
    ∃ id n₁ n₂, g.evaluate object m = .done (.instance id) n₁ ∧ g.evaluate value n₁ = .done v n₂ ∧
      n = n₂.withField id name v := by
  simp only [Evaluator.deeper, evaluateStep] at h
  have hdone := of_locating_done h
  cases hobject : g.evaluate object m with
  | stopped why n₁ =>
      simp only [bind_apply, hobject, Outcome.andThen] at hdone
      cases hdone
  | done o n₁ =>
      simp only [bind_apply, hobject, Outcome.andThen] at hdone
      cases o with
      | «instance» id =>
          cases hvalue : g.evaluate value n₁ with
          | stopped why n₂ =>
              simp only [bind_apply, hvalue, Outcome.andThen] at hdone
              cases hdone
          | done v' n₂ =>
              simp only [bind_apply, hvalue, Outcome.andThen] at hdone
              cases hdone
              exact ⟨id, n₁, n₂, rfl, hvalue, rfl⟩
      | nil | boolean | number | string | function | native | «class» | list | map => cases hdone

end Properties

end Eval

end Lox
