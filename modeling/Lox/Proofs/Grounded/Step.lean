import Lox.Proofs.Grounded.Operation

/-!
# Evaluating and executing on grounded machines

What is computed by means of an evaluator leaves the machine grounded if the evaluator does, and by
means of two evaluators it goes the same way if they do. So the checks of `Checks.all` change nothing
if those of `Checks.lookups` are made anyway: whatever is called has as many parameters as its arity
says, and every value that is computed leads to an object.
-/

namespace Lox

/-- On grounded machines the first evaluator does what the second one does. -/
structure Evaluator.Mirrors (g' g : Evaluator) : Prop where
  evaluate : ∀ e, Eval.Mirrors [] Value.refs (g'.evaluate e) (g.evaluate e)
  execute : ∀ s, Eval.Mirrors [] Signal.refs (g'.execute s) (g.execute s)
  run : ∀ body, Eval.Mirrors [] Signal.refs (g'.run body) (g.run body)

namespace Eval

namespace Mirrors

variable {α : Type} {uses : List Ref} {parts : α → List Ref}

section Brackets

variable {c' c : Eval α}

theorem sees_of_subset
    {bindings : List Binding} {m : Machine} {held : List Ref}
    (hbindings : bindings.flatMap (·.value.refs) ⊆ uses)
    (huses : uses ⊆ held)
    (hm : m.Grounded held) :
    ∀ b ∈ bindings, m.Sees b.value :=
  fun b hb t ht => hm.held t (huses (hbindings (List.mem_flatMap.mpr ⟨b, hb, ht⟩)))

/-- The scope that is left is held all the while, so it is there at the end. -/
theorem inScopeOf
    {parent : ScopeId} {bindings : List Binding} {m : Machine} {held : List Ref}
    (h : Mirrors uses parts c' c)
    (hbindings : bindings.flatMap (·.value.refs) ⊆ uses)
    (huses : uses ⊆ held)
    (hm : m.Grounded held)
    (hparent : m.uses ⟨.scopes, parent⟩ = true) :
    (c' (m.enter parent bindings)).onMachine (·.leave m.current) =
        (c (m.enter parent bindings)).onMachine (·.leave m.current) ∧
      ((c (m.enter parent bindings)).onMachine (·.leave m.current)).machine.Grounded
        (((c (m.enter parent bindings)).onMachine (·.leave m.current)).refs parts ++ held) := by
  have hm' : (m.enter parent bindings).Grounded (⟨.scopes, m.current⟩ :: held) :=
    (hm.hold hm.current).enter hparent (sees_of_subset hbindings huses hm)
  obtain ⟨heq, hn⟩ := h.around (List.subset_cons_of_subset _ huses) hm' (·.leave m.current)
    fun n more hn => hn.leave (by simp)
  refine ⟨heq, hn.mono fun t ht => hn.held t ?_⟩
  rcases List.mem_append.mp ht with ht | ht
  · exact List.mem_append_left _ ht
  · exact List.mem_append_right _ (List.mem_cons_of_mem _ ht)

theorem inNewScope
    {parent : ScopeId} {bindings : List Binding}
    (h : Mirrors uses parts c' c)
    (hparent : ⟨.scopes, parent⟩ ∈ uses)
    (hbindings : bindings.flatMap (·.value.refs) ⊆ uses) :
    Mirrors uses parts (Eval.inNewScope parent bindings c') (Eval.inNewScope parent bindings c) := by
  intro m held huses hm
  simp only [inNewScope_apply]
  exact h.inScopeOf hbindings huses hm (hm.held _ (huses hparent))

theorem inInnerScope
    {bindings : List Binding}
    (h : Mirrors uses parts c' c)
    (hbindings : bindings.flatMap (·.value.refs) ⊆ uses) :
    Mirrors uses parts (Eval.inInnerScope bindings c') (Eval.inInnerScope bindings c) := by
  intro m held huses hm
  simp only [inInnerScope_apply]
  exact h.inScopeOf hbindings huses hm hm.current

theorem inCall (h : Mirrors uses parts c' c) (frame : Frame) :
    Mirrors uses parts (Eval.inCall frame c') (Eval.inCall frame c) := by
  intro m held huses hm
  simp only [inCall_apply]
  have hm' : (m.pushFrame frame).Grounded held := hm.of_eq (fun _ => rfl) rfl rfl
  exact h.around huses hm' _ fun n more hn => hn.of_eq (fun _ => rfl) rfl rfl

/-- A fault that is caught becomes a text, which refers to nothing. -/
theorem settle
    {c' c : Eval Signal}
    (h : Mirrors uses Signal.refs c' c)
    (catchFaults : Bool)
    (span : Span) :
    Mirrors uses Signal.refs (Eval.settle catchFaults span c')
      (Eval.settle catchFaults span c) := by
  intro m held huses hm
  obtain ⟨heq, hn⟩ := h m held huses hm
  refine ⟨by simp only [Eval.settle, heq], ?_⟩
  cases ho : c m with
  | done signal n =>
      rw [ho] at hn
      simpa only [Eval.settle, ho] using hn
  | stopped why n =>
      rw [ho] at hn
      cases why with
      | thrown t | exhausted | outOfFuel =>
          simp only [Eval.settle, ho]
          exact hn
      | failed f =>
          simp only [Eval.settle, ho]
          split <;> exact hn

end Brackets

theorem refs_of_parameters
    {params : List String} {arguments : List Value}
    (h : arguments.flatMap Value.refs ⊆ uses) :
    ((params.zip arguments).map fun p => Binding.mk p.1 p.2 false).flatMap (·.value.refs) ⊆
      uses := by
  intro t ht
  obtain ⟨b, hb, ht⟩ := List.mem_flatMap.mp ht
  obtain ⟨pair, hpair, rfl⟩ := List.mem_map.mp hb
  exact h (List.mem_flatMap.mpr ⟨_, (List.of_mem_zip hpair).2, ht⟩)

variable {g' g : Evaluator} (hg : g'.Mirrors g)
include hg

theorem evaluate (e : Expr) : Mirrors uses Value.refs (g'.evaluate e) (g.evaluate e) :=
  (hg.evaluate e).weaken (List.nil_subset _)

theorem execute (s : Stmt) : Mirrors uses Signal.refs (g'.execute s) (g.execute s) :=
  (hg.execute s).weaken (List.nil_subset _)

section Blocks

theorem executeAll (statements : List Stmt) :
    Mirrors uses Signal.refs (Eval.executeAll g' statements) (Eval.executeAll g statements) := by
  induction statements generalizing uses with
  | nil => exact pure (by simp)
  | cons s rest ih =>
      refine bind (execute hg s) fun signal => ?_
      cases signal with
      | normal => exact ih
      | returned | broke | continued | thrown => exact pure (by simp)

theorem executeBlock
    (statements : List Stmt)
    {bindings : List Binding}
    (hbindings : bindings.flatMap (·.value.refs) ⊆ uses) :
    Mirrors uses Signal.refs (Eval.executeBlock g' statements bindings)
      (Eval.executeBlock g statements bindings) :=
  (executeAll hg statements).inInnerScope hbindings

theorem evaluateAll (es : List Expr) :
    Mirrors uses (·.flatMap Value.refs) (Eval.evaluateAll g' es) (Eval.evaluateAll g es) := by
  induction es generalizing uses with
  | nil => exact pure (by simp)
  | cons e rest ih =>
      refine bind (evaluate hg e) fun v => bind ih fun vs => pure ?_
      simp

end Blocks

section Calls

variable {arguments : List Value} (harguments : arguments.flatMap Value.refs ⊆ uses)
include harguments

theorem runBody
    {scope : ScopeId}
    (hscope : ⟨.scopes, scope⟩ ∈ uses)
    (params : List String)
    (body : List Stmt) :
    Mirrors uses Value.refs (Eval.runBody g' params body scope arguments)
      (Eval.runBody g params body scope arguments) :=
  bind (((hg.run body).weaken (List.nil_subset _)).inNewScope hscope
    (refs_of_parameters harguments)) fun _ => callResult (List.subset_append_left _ _)

theorem runMethod
    {receiver : InstanceId}
    (hreceiver : ⟨.instances, receiver⟩ ∈ uses)
    (method : MethodId) :
    Mirrors uses Value.refs (Eval.runMethod g' receiver method arguments)
      (Eval.runMethod g receiver method arguments) := by
  have hfound : Grounds uses (fun f : Option MethodObject => f.toList.map (⟨.scopes, ·.scope⟩))
      (Eval.ask fun m => m.methods[method]?) := by
    refine ask fun m held _ hm t ht => ?_
    obtain ⟨f, hf, rfl⟩ := List.mem_map.mp ht
    exact hm.uses_of_method (Option.mem_toList.mp hf) _ List.mem_cons_self
  refine bind hfound fun f => ?_
  cases f with
  | none => exact plain rfl
  | some f =>
      refine bind (newScope (by simp)) fun inner => ?_
      refine bind (update fun m held huses hm => hm.define fun t ht => ?_) fun _ => ?_
      · exact hm.held t (huses (by simp_all [Value.refs]))
      · refine bind (runBody hg (fun t ht => ?_) (by simp) f.params f.body) fun result =>
          pure ?_
        · exact List.mem_append_right _ (List.mem_append_right _ (List.mem_append_right _
            (harguments ht)))
        · split <;> simp [Value.refs, hreceiver]

theorem runFunction {id : FunctionId} :
    Mirrors uses Value.refs (Eval.runFunction g' id arguments)
      (Eval.runFunction g id arguments) := by
  have hfound : Grounds uses (fun f : Option FunctionObject =>
      f.toList.flatMap fun f => (Object.function f).refs)
      (Eval.ask fun m => m.functions[id]?) := by
    refine ask fun m held _ hm t ht => ?_
    obtain ⟨f, hf, ht⟩ := List.mem_flatMap.mp ht
    exact hm.uses_of_function (Option.mem_toList.mp hf) t ht
  refine bind hfound fun f => ?_
  cases f with
  | none => exact plain rfl
  | some f =>
      have harguments' (more : List Ref) : arguments.flatMap Value.refs ⊆ more ++ uses :=
        List.subset_append_of_subset_right _ harguments
      cases f with
      | closure name params body scope =>
          exact runBody hg (harguments' _) (by simp [Object.refs]) params body
      | bound receiver method =>
          exact runMethod hg (harguments' _) (by simp [Object.refs]) method

theorem construct {id : ClassId} (hid : ⟨.classes, id⟩ ∈ uses) :
    Mirrors uses Value.refs (Eval.construct g' id arguments)
      (Eval.construct g id arguments) := by
  refine bind (newInstance hid) fun i => bind (consult _) fun method => ?_
  cases method with
  | none => exact pure (by simp [Value.refs])
  | some method =>
      refine bind (runMethod hg ?_ (by simp) method) fun _ => pure (by simp [Value.refs])
      exact List.subset_append_of_subset_right _ (List.subset_append_of_subset_right _ harguments)

theorem invoke {callee : Value} (hcallee : callee.refs ⊆ uses) :
    Mirrors uses Value.refs (Eval.invoke g' callee arguments)
      (Eval.invoke g callee arguments) := by
  cases callee with
  | function id => exact runFunction hg harguments
  | native id => exact callNative harguments id
  | «class» id => exact construct hg harguments (hcallee (by simp [Value.refs]))
  | nil | boolean | number | string | «instance» | list | map => exact plain rfl

theorem callValue
    {callee : Value}
    (hcallee : callee.refs ⊆ uses)
    (limits : Limits)
    (site : Option Span) :
    Mirrors uses Value.refs (Eval.callValue limits g' callee arguments site)
      (Eval.callValue limits g callee arguments site) := by
  refine bind (consult _) fun arity => ?_
  cases arity with
  | none => exact fail _
  | some expected =>
      refine bind (consult _) fun name => ?_
      by_cases harity : arguments.length = expected
      · simp only [ne_eq, harity, not_true_eq_false, if_false]
        refine bind (consult _) fun depth => ?_
        by_cases hdepth : limits.maxCallDepth ≤ depth
        · simp only [hdepth, if_true]
          exact fail _
        · simp only [hdepth, if_false]
          exact (invoke hg (by simpa using harguments) (by simpa using hcallee)).inCall ⟨name, site⟩
      · simp only [ne_eq, harity, not_false_eq_true, if_true]
        exact fail _

end Calls

section Expressions

theorem evaluateBinary (left : Expr) (op : BinaryOp) (right : Expr) :
    Mirrors uses Value.refs (Eval.evaluateBinary g' left op right)
      (Eval.evaluateBinary g left op right) := by
  refine bind (evaluate hg left) fun l => bind (evaluate hg right) fun r => ?_
  cases hvalue : op.apply l r with
  | ok v => exact plain (BinaryOp.apply_isPlain hvalue)
  | error fault => cases fault <;> exact stop trivial

theorem addEntries (map : MapId) (entries : List MapEntry) :
    Mirrors uses (fun _ => []) (Eval.addEntries g' map entries)
      (Eval.addEntries g map entries) := by
  induction entries generalizing uses with
  | nil => exact pure (by simp)
  | cons entry rest ih =>
      cases entry with
      | mk key value =>
          refine bind (evaluate hg key) fun k => bind (evaluate hg value) fun v => ?_
          exact bind ((setItem (by simp) _ k).locating key.span) fun _ => ih

/-- An expression without checks. -/
theorem evaluateStep (limits : Limits) (e : Expr) :
    Mirrors uses Value.refs (Eval.evaluateStep limits g' e) (Eval.evaluateStep limits g e) := by
  refine locating ?_ e.span
  cases e with
  | literal value span => exact plain (Value.ofLiteral_isPlain value)
  | reference name span => exact lookup name
  | assign name value span =>
      exact bind (evaluate hg value) fun v => bind (assign (by simp) name) fun _ => pure (by simp)
  | binary left op right span => exact evaluateBinary hg left op right
  | unary op operand span =>
      refine bind (evaluate hg operand) fun v => read (fun _ => op.apply v) ?_
      exact fun m _ _ _ w hw => m.sees_of_isPlain (UnaryOp.apply_isPlain hw)
  | logical left op right span =>
      refine bind (evaluate hg left) fun l => ?_
      split
      · exact pure (by simp)
      · exact evaluate hg right
  | conditional condition thenBranch elseBranch span =>
      refine bind (evaluate hg condition) fun v => ?_
      split
      · exact evaluate hg thenBranch
      · exact evaluate hg elseBranch
  | call callee arguments span =>
      exact bind (evaluate hg callee) fun f => bind (evaluateAll hg arguments) fun vs =>
        callValue hg (by simp) (by simp) limits (some span)
  | get object name span => exact bind (evaluate hg object) fun o => property (by simp) name
  | set object name value span =>
      refine bind (evaluate hg object) fun o => ?_
      cases o with
      | «instance» id =>
          exact bind (evaluate hg value) fun v =>
            bind (setField (by simp) id name) fun _ => pure (by simp)
      | nil | boolean | number | string | function | native | «class» | list | map =>
          exact fail _
  | this span => exact lookup "this"
  | super method span => exact evaluateSuper method
  | list elements span =>
      refine bind (evaluateAll hg elements) fun vs => newList (fun _ => vs.toArray) ?_
      intro m held huses hm v hv t ht
      refine hm.held t (huses (List.mem_append_left _ ?_))
      exact List.mem_flatMap.mpr ⟨v, by simpa using hv, ht⟩
  | map entries span =>
      refine bind newMap fun v => ?_
      cases v with
      | map id => exact bind (addEntries hg id entries) fun _ => pure (by simp)
      | nil | boolean | number | string | function | native | «class» | «instance» | list =>
          exact pure (by simp)
  | index object index span =>
      exact bind (evaluate hg object) fun o => bind (evaluate hg index) fun i => item o i
  | indexSet object index value span =>
      exact bind (evaluate hg object) fun o => bind (evaluate hg index) fun i =>
        bind (evaluate hg value) fun v => setItem (by simp) o i
  | function params body span => exact makeClosure "lambda" params body

end Expressions

section Loops

theorem loopBody (body : Stmt) :
    Mirrors uses Signal.refs (Eval.loopBody g' body) (Eval.loopBody g body) :=
  executeBlock hg [body] (by simp)

theorem whileIterations (condition : Expr) (body : Stmt) (fuel : Nat) :
    Mirrors uses Signal.refs (Eval.whileIterations g' condition body fuel)
      (Eval.whileIterations g condition body fuel) := by
  induction fuel generalizing uses with
  | zero => exact stop trivial
  | succ fuel ih =>
      refine bind (evaluate hg condition) fun v => ?_
      split
      · refine bind (loopBody hg body) fun signal => ?_
        cases signal with
        | normal => exact ih
        | continued => exact ih
        | broke => exact pure (by simp)
        | returned | thrown => exact pure (by simp)
      · exact pure (by simp)

theorem doWhile (condition : Expr) (body : Stmt) (fuel : Nat) :
    Mirrors uses Signal.refs (Eval.doWhile g' condition body fuel)
      (Eval.doWhile g condition body fuel) := by
  refine bind (loopBody hg body) fun signal => ?_
  cases signal with
  | normal => exact whileIterations hg condition body fuel
  | continued => exact whileIterations hg condition body fuel
  | broke => exact pure (by simp)
  | returned | thrown => exact pure (by simp)

theorem holds (condition : Option Expr) :
    Mirrors uses (fun _ => []) (Eval.holds g' condition) (Eval.holds g condition) := by
  cases condition with
  | none => exact pure (by simp)
  | some e => exact bind (evaluate hg e) fun v => pure (by simp)

theorem advance (isFirst : Bool) (increment : Option Expr) :
    Mirrors uses (fun _ => []) (Eval.advance g' isFirst increment)
      (Eval.advance g isFirst increment) := by
  cases increment with
  | none => cases isFirst <;> exact pure (by simp)
  | some e =>
      cases isFirst with
      | true => exact pure (by simp)
      | false => exact bind (evaluate hg e) fun _ => pure (by simp)

theorem forIterations
    (condition increment : Option Expr)
    (body : Stmt)
    (fuel : Nat)
    (isFirst : Bool)
    (before : ScopeId) :
    Mirrors uses Signal.refs
      (Eval.forIterations g' condition increment body fuel isFirst before)
      (Eval.forIterations g condition increment body fuel isFirst before) := by
  induction fuel generalizing uses isFirst before with
  | zero => exact stop trivial
  | succ fuel ih =>
      refine bind (enterCopy before) fun scope => ?_
      refine bind (advance hg isFirst increment) fun _ =>
        bind (holds hg condition) fun goesOn => ?_
      split
      · refine bind (loopBody hg body) fun signal => ?_
        cases signal with
        | normal => exact ih false scope
        | continued => exact ih false scope
        | broke => exact pure (by simp)
        | returned | thrown => exact pure (by simp)
      · exact pure (by simp)

theorem executeOptional (s : Option Stmt) :
    Mirrors uses Signal.refs (Eval.executeOptional g' s) (Eval.executeOptional g s) := by
  cases s with
  | none => exact pure (by simp)
  | some s => exact execute hg s

theorem executeFor
    (initial : Option Stmt)
    (condition increment : Option Expr)
    (body : Stmt)
    (fuel : Nat) :
    Mirrors uses Signal.refs (Eval.executeFor g' initial condition increment body fuel)
      (Eval.executeFor g initial condition increment body fuel) := by
  refine inInnerScope (bind (executeOptional hg initial) fun signal => ?_) (by simp)
  cases signal with
  | normal =>
      exact bind (consult _) fun scope => forIterations hg condition increment body fuel true scope
  | returned | broke | continued | thrown => exact pure (by simp)

end Loops

section Statements

theorem evaluateSuperclass (superclass : Option (String × Span)) :
    Mirrors uses (fun parent => parent.toList.map (⟨.classes, ·⟩))
      (Eval.evaluateSuperclass g' superclass) (Eval.evaluateSuperclass g superclass) := by
  cases superclass with
  | none => exact pure (by simp)
  | some parent =>
      obtain ⟨name, span⟩ := parent
      refine bind (evaluate hg _) fun v => ?_
      cases v with
      | «class» id => exact pure (by simp [Value.refs])
      | nil | boolean | number | string | function | native | «instance» | list | map =>
          exact stop trivial

theorem declareClass
    (name : String)
    (superclass : Option (String × Span))
    (methods : List FunctionDecl) :
    Mirrors uses Signal.refs (Eval.declareClass g' name superclass methods)
      (Eval.declareClass g name superclass methods) :=
  bind (evaluateSuperclass hg superclass) fun _ =>
    defineClass (fun id hid => by simp_all) name methods

theorem evaluateOptional (e : Option Expr) :
    Mirrors uses Value.refs (Eval.evaluateOptional g' e) (Eval.evaluateOptional g e) := by
  cases e with
  | none => exact plain rfl
  | some e => exact evaluate hg e

theorem executeHandler
    (handler : Option CatchClause)
    {signal : Signal}
    (hsignal : signal.refs ⊆ uses) :
    Mirrors uses Signal.refs (Eval.executeHandler g' handler signal)
      (Eval.executeHandler g handler signal) := by
  cases handler with
  | none => cases signal <;> exact pure hsignal
  | some clause =>
      cases clause with
      | mk name body =>
          cases signal with
          | thrown t => exact executeBlock hg body (by simpa using hsignal)
          | normal | returned | broke | continued => exact pure hsignal

theorem executeTry
    (body : List Stmt)
    (handler : Option CatchClause)
    (cleanup : Option (List Stmt)) :
    Mirrors uses Signal.refs (Eval.executeTry g' body handler cleanup)
      (Eval.executeTry g body handler cleanup) := by
  refine bind (executeBlock hg body (by simp)) fun first => ?_
  refine bind (executeHandler hg handler (List.subset_append_left _ _)) fun pending => ?_
  cases cleanup with
  | none => exact pure (by simp)
  | some statements =>
      refine bind (executeBlock hg statements (by simp)) fun last => ?_
      cases last with
      | normal => exact pure (by simp)
      | returned | broke | continued | thrown => exact pure (by simp)

theorem executeStep (limits : Limits) (s : Stmt) :
    Mirrors uses Signal.refs (Eval.executeStep limits g' s) (Eval.executeStep limits g s) := by
  refine settle ?_ limits.catchFaults s.span
  cases s with
  | expression e span =>
      refine bind (evaluate hg e) fun v => bind (update fun m held huses hm => ?_) fun _ =>
        pure (by simp)
      exact hm.withLastValue fun t ht => hm.held t (huses (List.mem_append_left _ ht))
  | print e span =>
      exact bind (evaluate hg e) fun v => bind (consult _) fun line =>
        bind (print _) fun _ => pure (by simp)
  | declare name initial isConst span =>
      exact bind (evaluateOptional hg initial) fun v =>
        bind (define (by simp) name isConst) fun _ => pure (by simp)
  | block statements span => exact executeBlock hg statements (by simp)
  | ifElse condition thenBranch elseBranch span =>
      refine bind (evaluate hg condition) fun v => ?_
      split
      · exact execute hg thenBranch
      · cases elseBranch with
        | none => exact pure (by simp)
        | some s => exact execute hg s
  | whileLoop condition body span => exact whileIterations hg condition body limits.fuel
  | doWhile body condition span => exact doWhile hg condition body limits.fuel
  | forLoop initial condition increment body span =>
      exact executeFor hg initial condition increment body limits.fuel
  | breakLoop span => exact pure (by simp)
  | continueLoop span => exact pure (by simp)
  | function d => exact declareFunction d
  | returnValue value span => exact bind (evaluateOptional hg value) fun v => pure (by simp)
  | classDecl name superclass methods span => exact declareClass hg name superclass methods
  | tryBlock body handler cleanup span => exact executeTry hg body handler cleanup
  | throwValue value span =>
      exact bind (evaluate hg value) fun payload => bind (consult _) fun trace => pure (by simp)
  | dump span => exact dumpBindings

end Statements

end Mirrors

end Eval

end Lox
