import Lox.Proofs.Journal.Tracking

/-!
# Evaluating and executing with a journal

Every function of the recorder keeps the journal of the function of the evaluator that has the same
name. A statement is taken apart from how it is settled that it ends (`Tracks.executeParts`).
-/

namespace Lox

namespace Tracks

variable {α β : Type} {catchFaults strict : Bool}
variable {uses : List Value} {parts : α → List Value}

/-- An elementary operation. -/
theorem elementary
    {c : Eval α}
    (h : c.Elementary Machine.Grows)
    (hknows : c.Knows uses parts) :
    Tracks catchFaults strict uses parts (fun _ => .own c) (fun _ => c) :=
  own h.steps hknows

/-- A question whose answer contains no values. -/
theorem ask (question : Machine → α) :
    Tracks catchFaults strict uses (fun _ => []) (fun _ => .own (Eval.ask question))
      (fun _ => Eval.ask question) :=
  elementary (.ask question) (.ask (by simp))

theorem fail (fault : Fault) :
    Tracks catchFaults strict uses parts (fun _ => .own (Eval.fail fault : Eval α))
      (fun _ => Eval.fail fault) :=
  elementary (.fail fault) (.fail fault)

/-- A change of the machine. -/
theorem update
    {change : Machine → Machine}
    (hgrows : ∀ m : Machine, m.Grows (change m))
    (hknows : ∀ m held, uses ⊆ held → m.Knows held → (change m).Knows held) :
    Tracks catchFaults strict uses (fun _ => []) (fun _ => .own (Eval.update change))
      (fun _ => Eval.update change) :=
  own (.update hgrows) (.update hknows)

theorem plain {v : Value} (hv : v.isPlain = true) :
    Tracks catchFaults strict uses ([·]) (fun _ => Pure.pure v) (fun _ => Pure.pure v) :=
  pure fun _ hw => .inr (List.mem_singleton.mp hw ▸ Value.known_of_isPlain hv)

theorem value_of_mem_parameterBindings
    {params : List String} {arguments : List Value} {b : Binding}
    (hb : b ∈ parameterBindings params arguments) :
    b.value ∈ arguments := by
  obtain ⟨pair, hpair, rfl⟩ := List.mem_map.mp hb
  exact (List.of_mem_zip hpair).2

section Blocks

theorem executeAll (statements : List Stmt) :
    Tracks catchFaults strict uses Signal.values (fun R => Recorded.executeAll R statements)
      (fun g => Eval.executeAll g statements) := by
  induction statements generalizing uses with
  | nil => exact pure (by simp)
  | cons s rest ih =>
      refine bind (execute s) fun signal => ?_
      cases signal with
      | normal => exact ih
      | returned | broke | continued | thrown => exact pure (by simp)

theorem executeBlock
    (statements : List Stmt)
    {bindings : List Binding}
    (hbindings : ∀ b ∈ bindings, b.value ∈ uses) :
    Tracks catchFaults strict uses Signal.values
      (fun R => Recorded.executeBlock R statements bindings)
      (fun g => Eval.executeBlock g statements bindings) :=
  (executeAll statements).inInnerScope hbindings

theorem evaluateAll (es : List Expr) :
    Tracks catchFaults strict uses id (fun R => Recorded.evaluateAll R es)
      (fun g => Eval.evaluateAll g es) := by
  induction es generalizing uses with
  | nil => exact pure (by simp)
  | cons e rest ih =>
      exact bind (evaluate e) fun v => bind ih fun vs => pure (by simp +contextual)

end Blocks

section Calls

variable {arguments : List Value} (harguments : arguments ⊆ uses)
include harguments

theorem runBody (params : List String) (body : List Stmt) (scope : ScopeId) :
    Tracks catchFaults strict uses ([·])
      (fun R => Recorded.runBody R params body scope arguments)
      (fun g => Eval.runBody g params body scope arguments) := by
  refine bind ((run body).inNewScope scope fun b hb => ?_) fun signal => ?_
  · exact harguments (value_of_mem_parameterBindings hb)
  · exact own (.callResult signal) (.callResult (List.subset_append_left _ _))

theorem runMethod (receiver : InstanceId) (method : MethodId) :
    Tracks catchFaults strict uses ([·])
      (fun R => Recorded.runMethod R receiver method arguments)
      (fun g => Eval.runMethod g receiver method arguments) := by
  refine bind (ask _) fun f => ?_
  cases f with
  | none => exact pure (by simp)
  | some f =>
      refine bind (own (.make fun _ => .of_eq rfl rfl) (.newScope f.scope)) fun inner => ?_
      refine bind (update (fun _ => .of_eq rfl rfl) fun m held _ hm => hm.define inner trivial)
        fun _ => ?_
      refine bind (runBody harguments f.params f.body inner) fun result => pure ?_
      split <;> simp

theorem runFunction (id : FunctionId) :
    Tracks catchFaults strict uses ([·]) (fun R => Recorded.runFunction R id arguments)
      (fun g => Eval.runFunction g id arguments) := by
  refine bind (ask _) fun f => ?_
  cases f with
  | none => exact pure (by simp)
  | some f =>
      cases f with
      | closure name params body scope => exact runBody harguments params body scope
      | bound receiver method => exact runMethod harguments receiver method

theorem construct (classId : ClassId) :
    Tracks catchFaults strict uses ([·]) (fun R => Recorded.construct R classId arguments)
      (fun g => Eval.construct g classId arguments) := by
  refine bind (own (.make fun _ => .of_eq rfl rfl) (.newInstance classId)) fun id => ?_
  refine bind (ask _) fun method => ?_
  cases method with
  | none => exact pure (by simp)
  | some method => exact bind (runMethod harguments id method) fun _ => pure (by simp)

theorem invoke (callee : Value) :
    Tracks catchFaults strict uses ([·]) (fun R => Recorded.invoke R callee arguments)
      (fun g => Eval.invoke g callee arguments) := by
  cases callee with
  | function id => exact runFunction harguments id
  | native id => exact elementary (.callNative id arguments) (.callNative id harguments)
  | «class» id => exact construct harguments id
  | nil | boolean | number | string | «instance» | list | map => exact pure (by simp)

theorem callValue (limits : Limits) (callee : Value) (site : Option Span) :
    Tracks catchFaults strict uses ([·])
      (fun R => Recorded.callValue limits R callee arguments site)
      (fun g => Eval.callValue limits g callee arguments site) := by
  refine bind (ask _) fun arity => ?_
  cases arity with
  | none => exact fail _
  | some expected =>
      refine bind (ask _) fun name => ?_
      by_cases harity : arguments.length = expected
      · simp only [ne_eq, harity, not_true_eq_false, if_false]
        refine bind (ask _) fun depth => ?_
        by_cases hdepth : limits.maxCallDepth ≤ depth
        · simp only [hdepth, if_true]
          exact fail _
        · simp only [hdepth, if_false]
          exact (invoke harguments callee).inCall ⟨name, site⟩
      · simp only [ne_eq, harity, not_false_eq_true, if_true]
        exact fail _

end Calls

section Expressions

theorem evaluateBinary (left : Expr) (op : BinaryOp) (right : Expr) :
    Tracks catchFaults strict uses ([·]) (fun R => Recorded.evaluateBinary R left op right)
      (fun g => Eval.evaluateBinary g left op right) := by
  refine bind (evaluate left) fun l => bind (evaluate right) fun r => ?_
  cases hvalue : op.apply l r with
  | ok v => exact plain (BinaryOp.apply_isPlain hvalue)
  | error fault => cases fault <;> exact own (.stop _) (.stop trivial)

theorem addEntries (map : MapId) (entries : List MapEntry) :
    Tracks catchFaults strict uses (fun _ => []) (fun R => Recorded.addEntries R map entries)
      (fun g => Eval.addEntries g map entries) := by
  induction entries generalizing uses with
  | nil => exact pure (by simp)
  | cons entry rest ih =>
      cases entry with
      | mk key value =>
          refine bind (evaluate key) fun k => bind (evaluate value) fun v => ?_
          have hstore : Eval.Knows (v :: k :: uses) ([·])
              (Eval.locating key.span (Eval.setItem (.map map) k v)) :=
            .locating (.setItem (by simp) _ k) key.span
          exact bind (elementary (.locating (.setItem _ k v) key.span) hstore) fun _ => ih

/-- An expression, apart from the event that it was begun. -/
theorem evaluateParts (limits : Limits) (e : Expr) :
    Tracks catchFaults strict uses ([·]) (fun R => Recorded.evaluateParts limits R e)
      (fun g => Eval.evaluateStep limits g e) := by
  refine locating ?_ e.span
  cases e with
  | literal value span => exact plain (Value.ofLiteral_isPlain value)
  | reference name span => exact elementary (.lookup name) (.lookup name)
  | assign name value span =>
      exact bind (evaluate value) fun v =>
        bind (elementary (.attempt fun _ => .of_eq rfl rfl) (.assign (by simp) name)) fun _ =>
          pure (by simp)
  | binary left op right span => exact evaluateBinary left op right
  | unary op operand span =>
      refine bind (evaluate operand) fun v => elementary (.ofExcept _) ?_
      refine .read fun _ _ _ _ w hw u hu => ?_
      exact List.mem_singleton.mp hu ▸ Value.known_of_isPlain (UnaryOp.apply_isPlain hw) _
  | logical left op right span =>
      refine bind (evaluate left) fun l => ?_
      split
      · exact pure (by simp)
      · exact evaluate right
  | conditional condition thenBranch elseBranch span =>
      refine bind (evaluate condition) fun v => ?_
      split
      · exact evaluate thenBranch
      · exact evaluate elseBranch
  | call callee arguments span =>
      exact bind (evaluate callee) fun f => bind (evaluateAll arguments) fun vs =>
        callValue (List.subset_append_left _ _) limits f (some span)
  | get object name span =>
      exact bind (evaluate object) fun o => elementary (.property o name) (.property o name)
  | set object name value span =>
      refine bind (evaluate object) fun o => ?_
      cases o with
      | «instance» id =>
          exact bind (evaluate value) fun v =>
            bind (elementary (.update fun _ => .of_eq rfl rfl) (.setField (by simp) id name)) fun _ =>
              pure (by simp)
      | nil | boolean | number | string | function | native | «class» | list | map =>
          exact fail _
  | this span => exact elementary (.lookup "this") (.lookup "this")
  | super method span => exact elementary (.evaluateSuper method) (.evaluateSuper method)
  | list elements span =>
      refine bind (evaluateAll elements) fun vs => elementary (.newList fun _ => vs.toArray) ?_
      refine .newList fun m held huses hm v hv => ?_
      exact hm.inFlight v (huses (List.mem_append_left _ (by simpa using hv)))
  | map entries span =>
      refine bind (elementary (.newMap []) .newMap) fun v => ?_
      cases v with
      | map id => exact bind (addEntries id entries) fun _ => pure (by simp)
      | nil | boolean | number | string | function | native | «class» | «instance» | list =>
          exact pure (by simp)
  | index object index span =>
      exact bind (evaluate object) fun o => bind (evaluate index) fun i =>
        elementary (.item o i) (.item o i)
  | indexSet object index value span =>
      exact bind (evaluate object) fun o => bind (evaluate index) fun i =>
        bind (evaluate value) fun v => elementary (.setItem o i v) (.setItem (by simp) o i)
  | function params body span =>
      exact elementary (.makeClosure "lambda" params body) (.makeClosure "lambda" params body)

end Expressions

section Loops

theorem loopBody (body : Stmt) :
    Tracks catchFaults strict uses Signal.values (fun R => Recorded.loopBody R body)
      (fun g => Eval.loopBody g body) :=
  executeBlock [body] (by simp)

theorem whileIterations (condition : Expr) (body : Stmt) (fuel : Nat) :
    Tracks catchFaults strict uses Signal.values
      (fun R => Recorded.whileIterations R condition body fuel)
      (fun g => Eval.whileIterations g condition body fuel) := by
  induction fuel generalizing uses with
  | zero => exact own (.stop _) (.stop trivial)
  | succ fuel ih =>
      refine bind (evaluate condition) fun v => ?_
      split
      · refine bind (loopBody body) fun signal => ?_
        cases signal with
        | normal => exact ih
        | continued => exact ih
        | broke => exact pure (by simp)
        | returned | thrown => exact pure (by simp)
      · exact pure (by simp)

theorem doWhile (condition : Expr) (body : Stmt) (fuel : Nat) :
    Tracks catchFaults strict uses Signal.values
      (fun R => Recorded.doWhile R condition body fuel)
      (fun g => Eval.doWhile g condition body fuel) := by
  refine bind (loopBody body) fun signal => ?_
  cases signal with
  | normal => exact whileIterations condition body fuel
  | continued => exact whileIterations condition body fuel
  | broke => exact pure (by simp)
  | returned | thrown => exact pure (by simp)

theorem holds (condition : Option Expr) :
    Tracks catchFaults strict uses (fun _ => []) (fun R => Recorded.holds R condition)
      (fun g => Eval.holds g condition) := by
  cases condition with
  | none => exact pure (by simp)
  | some e => exact bind (evaluate e) fun v => pure (by simp)

theorem advance (isFirst : Bool) (increment : Option Expr) :
    Tracks catchFaults strict uses (fun _ => []) (fun R => Recorded.advance R isFirst increment)
      (fun g => Eval.advance g isFirst increment) := by
  cases increment with
  | none => cases isFirst <;> exact pure (by simp)
  | some e =>
      cases isFirst with
      | true => exact pure (by simp)
      | false => exact bind (evaluate e) fun _ => pure (by simp)

theorem forIterations
    (condition increment : Option Expr)
    (body : Stmt)
    (fuel : Nat)
    (isFirst : Bool)
    (before : ScopeId) :
    Tracks catchFaults strict uses Signal.values
      (fun R => Recorded.forIterations R condition increment body fuel isFirst before)
      (fun g => Eval.forIterations g condition increment body fuel isFirst before) := by
  induction fuel generalizing uses isFirst before with
  | zero => exact own (.stop _) (.stop trivial)
  | succ fuel ih =>
      refine bind (own (fun _ => .of_eq rfl rfl) (.enterCopy before)) fun scope => ?_
      refine bind (advance isFirst increment) fun _ => bind (holds condition) fun goesOn => ?_
      split
      · refine bind (loopBody body) fun signal => ?_
        cases signal with
        | normal => exact ih false scope
        | continued => exact ih false scope
        | broke => exact pure (by simp)
        | returned | thrown => exact pure (by simp)
      · exact pure (by simp)

theorem executeOptional (s : Option Stmt) :
    Tracks catchFaults strict uses Signal.values (fun R => Recorded.executeOptional R s)
      (fun g => Eval.executeOptional g s) := by
  cases s with
  | none => exact pure (by simp)
  | some s => exact execute s

theorem executeFor
    (initial : Option Stmt)
    (condition increment : Option Expr)
    (body : Stmt)
    (fuel : Nat) :
    Tracks catchFaults strict uses Signal.values
      (fun R => Recorded.executeFor R initial condition increment body fuel)
      (fun g => Eval.executeFor g initial condition increment body fuel) := by
  refine inInnerScope (bind (executeOptional initial) fun signal => ?_) (by simp)
  cases signal with
  | normal => exact bind (ask _) fun scope => forIterations condition increment body fuel true scope
  | returned | broke | continued | thrown => exact pure (by simp)

end Loops

section Statements

theorem evaluateSuperclass (superclass : Option (String × Span)) :
    Tracks catchFaults strict uses (fun parent => parent.toList.map Value.class)
      (fun R => Recorded.evaluateSuperclass R superclass)
      (fun g => Eval.evaluateSuperclass g superclass) := by
  cases superclass with
  | none => exact pure (by simp)
  | some parent =>
      obtain ⟨name, span⟩ := parent
      refine bind (evaluate _) fun v => ?_
      cases v with
      | «class» id => exact pure (by simp)
      | nil | boolean | number | string | function | native | «instance» | list | map =>
          exact own (.stop _) (.stop trivial)

theorem declareClass
    (name : String)
    (superclass : Option (String × Span))
    (methods : List FunctionDecl) :
    Tracks catchFaults strict uses Signal.values
      (fun R => Recorded.declareClass R name superclass methods)
      (fun g => Eval.declareClass g name superclass methods) := by
  refine bind (evaluateSuperclass superclass) fun parent => ?_
  exact elementary (.defineClass name parent methods)
    (.defineClass (fun id hid => by simp_all) name methods)

theorem evaluateOptional (e : Option Expr) :
    Tracks catchFaults strict uses ([·]) (fun R => Recorded.evaluateOptional R e)
      (fun g => Eval.evaluateOptional g e) := by
  cases e with
  | none => exact pure (by simp)
  | some e => exact evaluate e

theorem executeHandler
    (handler : Option CatchClause)
    {signal : Signal}
    (hsignal : signal.values ⊆ uses) :
    Tracks catchFaults false uses Signal.values
      (fun R => Recorded.executeHandler R handler signal)
      (fun g => Eval.executeHandler g handler signal) := by
  have hpass : ∀ v ∈ signal.values, v ∈ uses ∨ ∀ count, v.Known count :=
    fun v hv => .inl (hsignal hv)
  cases handler with
  | none => cases signal <;> exact pure hpass
  | some clause =>
      cases clause with
      | mk name body =>
          cases signal with
          | thrown t => exact (executeBlock body (by simpa using hsignal)).inClause .handler body
          | normal | returned | broke | continued => exact pure hpass

theorem executeTry
    (body : List Stmt)
    (handler : Option CatchClause)
    (cleanup : Option (List Stmt)) :
    Tracks catchFaults false uses Signal.values
      (fun R => Recorded.executeTry R body handler cleanup)
      (fun g => Eval.executeTry g body handler cleanup) := by
  refine bind ((executeBlock body (by simp)).inClause .body body) fun first => ?_
  refine bind (executeHandler handler (List.subset_append_left _ _)) fun pending => ?_
  cases cleanup with
  | none => exact pure fun v hv => .inl (List.mem_append_left _ hv)
  | some statements =>
      refine bind ((executeBlock statements (by simp)).inClause .cleanup statements) fun last => ?_
      cases last with
      | normal => exact pure fun v hv => .inl (List.mem_append_left _ hv : v ∈ pending.values ++ _)
      | returned | broke | continued | thrown => exact pure (by simp)

/-- A statement, before it is settled how it ends. -/
theorem executeParts
    (limits : Limits)
    (s : Stmt)
    (hstrict : strict = true → ∀ body handler cleanup span,
      s ≠ .tryBlock body handler cleanup span) :
    ∃ c₀ : Evaluator → Eval Signal,
      (∀ g, Eval.executeStep limits g s = Eval.settle limits.catchFaults s.span (c₀ g)) ∧
      Tracks catchFaults strict uses Signal.values (fun R => Recorded.executeParts limits R s)
        c₀ := by
  cases s with
  | expression e span =>
      refine ⟨_, fun _ => rfl, bind (evaluate e) fun v => ?_⟩
      exact bind (update (fun _ => .of_eq rfl rfl) fun _ _ _ hm => hm.of_eq (fun _ => rfl) rfl)
        fun _ => pure (by simp)
  | print e span =>
      refine ⟨_, fun _ => rfl, bind (evaluate e) fun v => bind (ask _) fun line => ?_⟩
      exact bind (update (fun _ => .of_eq rfl rfl) fun _ _ _ hm => hm.of_eq (fun _ => rfl) rfl)
        fun _ => pure (by simp)
  | declare name initial isConst span =>
      refine ⟨_, fun _ => rfl, bind (evaluateOptional initial) fun v => ?_⟩
      exact bind (elementary (.define name v isConst) (.define (.inl (by simp)) name isConst)) fun _ =>
        pure (by simp)
  | block statements span => exact ⟨_, fun _ => rfl, executeBlock statements (by simp)⟩
  | ifElse condition thenBranch elseBranch span =>
      refine ⟨_, fun _ => rfl, bind (evaluate condition) fun v => ?_⟩
      split
      · exact execute thenBranch
      · cases elseBranch with
        | none => exact pure (by simp)
        | some s => exact execute s
  | whileLoop condition body span =>
      exact ⟨_, fun _ => rfl, whileIterations condition body limits.fuel⟩
  | doWhile body condition span => exact ⟨_, fun _ => rfl, doWhile condition body limits.fuel⟩
  | forLoop initial condition increment body span =>
      exact ⟨_, fun _ => rfl, executeFor initial condition increment body limits.fuel⟩
  | breakLoop span => exact ⟨_, fun _ => rfl, pure (by simp)⟩
  | continueLoop span => exact ⟨_, fun _ => rfl, pure (by simp)⟩
  | function d => exact ⟨_, fun _ => rfl, elementary (.declareFunction d) (.declareFunction d)⟩
  | returnValue value span =>
      exact ⟨_, fun _ => rfl, bind (evaluateOptional value) fun v => pure (by simp)⟩
  | classDecl name superclass methods span =>
      exact ⟨_, fun _ => rfl, declareClass name superclass methods⟩
  | tryBlock body handler cleanup span =>
      obtain rfl : strict = false := by
        cases strict with
        | false => rfl
        | true => exact absurd rfl (hstrict rfl body handler cleanup span)
      exact ⟨_, fun _ => rfl, executeTry body handler cleanup⟩
  | throwValue value span =>
      exact ⟨_, fun _ => rfl, bind (evaluate value) fun payload =>
        bind (ask _) fun trace => pure (by simp)⟩
  | dump span => exact ⟨_, fun _ => rfl, elementary .dumpBindings .dumpBindings⟩

end Statements

end Tracks

end Lox
