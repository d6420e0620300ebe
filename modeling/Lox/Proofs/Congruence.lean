import Lox.Proofs.Elementary

/-!
# Congruences of computations

Computations under two sets of limits are compared by a relation. If all the ways in which the
evaluator builds computations respect it, it is a *congruence* (`Eval.Congruence`), and if it holds of
the answers of two evaluators, it holds of everything that they do with code. So it also holds of
evaluators that use them for the parts (`Eval.Congruence.tie`).
-/

namespace Lox

/-- A relation of computations is respected by all the ways in which the evaluator builds
computations, under the limits on either side. -/
structure Eval.Congruence
    (limits limits' : Limits)
    (rel : ∀ {α : Type}, Eval α → Eval α → Prop) :
    Prop where
  fuel_eq : limits.fuel = limits'.fuel
  elementary : ∀ {α : Type} {c : Eval α}, c.Elementary Machine.SameFrames → rel c c
  throw : ∀ {α : Type} (t : Thrown), rel (Eval.stop (.thrown t) : Eval α) (Eval.stop (.thrown t))
  bind : ∀ {α β : Type} {c c' : Eval α} {f f' : α → Eval β},
    rel c c' → (∀ a, rel (f a) (f' a)) → rel (c >>= f) (c' >>= f')
  inNewScope : ∀ {α : Type} {c c' : Eval α} (parent : ScopeId) (bindings : List Binding),
    rel c c' → rel (Eval.inNewScope parent bindings c) (Eval.inNewScope parent bindings c')
  /-- A call is entered if the limit on active calls permits it. -/
  enterCall : ∀ {α : Type} {c c' : Eval α} (frame : Frame),
    rel c c' →
    rel
      (do
        if limits.maxCallDepth ≤ (← Eval.ask fun m => m.frames.length) then
          Eval.fail (.callDepth limits.maxCallDepth)
        else
          Eval.inCall frame c)
      (do
        if limits'.maxCallDepth ≤ (← Eval.ask fun m => m.frames.length) then
          Eval.fail (.callDepth limits'.maxCallDepth)
        else
          Eval.inCall frame c')
  locating : ∀ {α : Type} {c c' : Eval α} (span : Span),
    rel c c' → rel (Eval.locating span c) (Eval.locating span c')
  settle : ∀ {c c' : Eval Signal} (span : Span),
    rel c c' →
    rel (Eval.settle limits.catchFaults span c) (Eval.settle limits'.catchFaults span c')

/-- The evaluators give related answers. -/
structure Evaluator.Related
    (rel : ∀ {α : Type}, Eval α → Eval α → Prop)
    (g g' : Evaluator) :
    Prop where
  evaluate : ∀ e, rel (g.evaluate e) (g'.evaluate e)
  execute : ∀ s, rel (g.execute s) (g'.execute s)
  run : ∀ body, rel (g.run body) (g'.run body)

namespace Eval.Congruence

variable {limits limits' : Limits} {rel : ∀ {α : Type}, Eval α → Eval α → Prop}
  (hrel : Congruence limits limits' rel)

section Rules

include hrel

variable {α : Type}

theorem pure (a : α) : rel (pure a : Eval α) (pure a) :=
  hrel.elementary (.pure a)

theorem ask (question : Machine → α) : rel (Eval.ask question) (Eval.ask question) :=
  hrel.elementary (.ask question)

theorem fail (fault : Fault) : rel (Eval.fail fault : Eval α) (Eval.fail fault) :=
  hrel.elementary (.fail fault)

theorem outOfFuel : rel (Eval.stop .outOfFuel : Eval α) (Eval.stop .outOfFuel) :=
  hrel.elementary (.stop trivial)

theorem inInnerScope {c c' : Eval α} (bindings : List Binding) (hc : rel c c') :
    rel (Eval.inInnerScope bindings c) (Eval.inInnerScope bindings c') :=
  hrel.bind (hrel.ask _) fun parent => hrel.inNewScope parent bindings hc

theorem callResult (signal : Signal) : rel (Eval.callResult signal) (Eval.callResult signal) := by
  cases signal with
  | thrown t => exact hrel.throw t
  | normal | returned | broke | continued => exact hrel.pure _

end Rules

variable {g g' : Evaluator} (hg : Evaluator.Related rel g g')

section Blocks

include hrel hg

theorem executeAll (statements : List Stmt) :
    rel (Eval.executeAll g statements) (Eval.executeAll g' statements) := by
  induction statements with
  | nil => exact hrel.pure _
  | cons s rest ih =>
      refine hrel.bind (hg.execute s) fun signal => ?_
      cases signal with
      | normal => exact ih
      | returned | broke | continued | thrown => exact hrel.pure _

theorem executeBlock (statements : List Stmt) (bindings : List Binding) :
    rel (Eval.executeBlock g statements bindings) (Eval.executeBlock g' statements bindings) :=
  hrel.inInnerScope bindings (hrel.executeAll hg statements)

theorem evaluateAll (es : List Expr) :
    rel (Eval.evaluateAll g es) (Eval.evaluateAll g' es) := by
  induction es with
  | nil => exact hrel.pure _
  | cons e rest ih =>
      exact hrel.bind (hg.evaluate e) fun _ => hrel.bind ih fun _ => hrel.pure _

theorem executeOptional (s : Option Stmt) :
    rel (Eval.executeOptional g s) (Eval.executeOptional g' s) := by
  cases s with
  | none => exact hrel.pure _
  | some s => exact hg.execute s

theorem evaluateOptional (e : Option Expr) :
    rel (Eval.evaluateOptional g e) (Eval.evaluateOptional g' e) := by
  cases e with
  | none => exact hrel.pure _
  | some e => exact hg.evaluate e

end Blocks

section Calls

include hrel hg

theorem runBody
    (params : List String)
    (body : List Stmt)
    (scope : ScopeId)
    (arguments : List Value) :
    rel (Eval.runBody g params body scope arguments)
      (Eval.runBody g' params body scope arguments) :=
  hrel.bind (hrel.inNewScope scope _ (hg.run body)) hrel.callResult

theorem runMethod (receiver : InstanceId) (method : MethodId) (arguments : List Value) :
    rel (Eval.runMethod g receiver method arguments)
      (Eval.runMethod g' receiver method arguments) := by
  refine hrel.bind (hrel.ask _) fun f => ?_
  cases f with
  | none => exact hrel.pure _
  | some f =>
      refine hrel.bind (hrel.elementary (.make fun _ => rfl)) fun inner => ?_
      refine hrel.bind (hrel.elementary (.update fun _ => rfl)) fun _ => ?_
      exact hrel.bind (hrel.runBody hg _ _ _ _) fun _ => hrel.pure _

theorem runFunction (id : FunctionId) (arguments : List Value) :
    rel (Eval.runFunction g id arguments) (Eval.runFunction g' id arguments) := by
  refine hrel.bind (hrel.ask _) fun f => ?_
  cases f with
  | none => exact hrel.pure _
  | some f =>
      cases f with
      | closure => exact hrel.runBody hg _ _ _ _
      | bound => exact hrel.runMethod hg _ _ _

theorem construct (classId : ClassId) (arguments : List Value) :
    rel (Eval.construct g classId arguments) (Eval.construct g' classId arguments) := by
  refine hrel.bind (hrel.elementary (.make fun _ => rfl)) fun id => ?_
  refine hrel.bind (hrel.ask _) fun method => ?_
  cases method with
  | none => exact hrel.pure _
  | some method => exact hrel.bind (hrel.runMethod hg id method arguments) fun _ => hrel.pure _

theorem invoke (callee : Value) (arguments : List Value) :
    rel (Eval.invoke g callee arguments) (Eval.invoke g' callee arguments) := by
  cases callee with
  | function id => exact hrel.runFunction hg id arguments
  | native id => exact hrel.elementary (.callNative id arguments)
  | «class» id => exact hrel.construct hg id arguments
  | nil | boolean | number | string | «instance» | list | map => exact hrel.pure _

theorem callValue (callee : Value) (arguments : List Value) (site : Option Span) :
    rel (Eval.callValue limits g callee arguments site)
      (Eval.callValue limits' g' callee arguments site) := by
  refine hrel.bind (hrel.ask _) fun arity => ?_
  cases arity with
  | none => exact hrel.fail _
  | some expected =>
      refine hrel.bind (hrel.ask _) fun name => ?_
      by_cases harity : arguments.length ≠ expected
      · rw [if_pos harity, if_pos harity]
        exact hrel.fail _
      · rw [if_neg harity, if_neg harity]
        exact hrel.enterCall _ (hrel.invoke hg callee arguments)

end Calls

section Expressions

include hrel hg

theorem evaluateBinary (left : Expr) (op : BinaryOp) (right : Expr) :
    rel (Eval.evaluateBinary g left op right) (Eval.evaluateBinary g' left op right) := by
  refine hrel.bind (hg.evaluate left) fun l => hrel.bind (hg.evaluate right) fun r => ?_
  exact hrel.elementary (.ofOperator right.span (op.apply l r))

theorem addEntries (map : MapId) (entries : List MapEntry) :
    rel (Eval.addEntries g map entries) (Eval.addEntries g' map entries) := by
  induction entries with
  | nil => exact hrel.pure _
  | cons entry rest ih =>
      cases entry with
      | mk key value =>
          refine hrel.bind (hg.evaluate key) fun k => hrel.bind (hg.evaluate value) fun v => ?_
          exact hrel.bind (hrel.locating key.span (hrel.elementary (.setItem _ k v))) fun _ => ih

theorem evaluateStep (e : Expr) :
    rel (Eval.evaluateStep limits g e) (Eval.evaluateStep limits' g' e) := by
  refine hrel.locating e.span ?_
  cases e with
  | literal value span => exact hrel.pure _
  | reference name span => exact hrel.elementary (.lookup name)
  | assign name value span =>
      refine hrel.bind (hg.evaluate value) fun v => ?_
      exact hrel.bind (hrel.elementary (.assign name v)) fun _ => hrel.pure _
  | binary left op right span => exact hrel.evaluateBinary hg left op right
  | unary op operand span =>
      refine hrel.bind (hg.evaluate operand) fun v => ?_
      exact hrel.elementary (.ofExcept (op.apply v))
  | logical left op right span =>
      refine hrel.bind (hg.evaluate left) fun l => ?_
      by_cases hdecided : op.decidedBy l
      · simp only [hdecided]
        exact hrel.pure l
      · simp only [hdecided]
        exact hg.evaluate right
  | conditional condition thenBranch elseBranch span =>
      refine hrel.bind (hg.evaluate condition) fun c => ?_
      split
      · exact hg.evaluate thenBranch
      · exact hg.evaluate elseBranch
  | call callee arguments span =>
      refine hrel.bind (hg.evaluate callee) fun f => ?_
      exact hrel.bind (hrel.evaluateAll hg arguments) fun vs => hrel.callValue hg f vs (some span)
  | get object name span =>
      refine hrel.bind (hg.evaluate object) fun o => ?_
      exact hrel.elementary (.property o name)
  | set object name value span =>
      refine hrel.bind (hg.evaluate object) fun o => ?_
      cases o with
      | «instance» id =>
          refine hrel.bind (hg.evaluate value) fun v => ?_
          exact hrel.bind (hrel.elementary (.setField id name v)) fun _ => hrel.pure _
      | nil | boolean | number | string | function | native | «class» | list | map =>
          exact hrel.fail _
  | this span => exact hrel.elementary (.lookup "this")
  | super method span => exact hrel.elementary (.evaluateSuper method)
  | list elements span =>
      exact hrel.bind (hrel.evaluateAll hg elements) fun vs => hrel.elementary (.newList _)
  | map entries span =>
      refine hrel.bind (hrel.elementary (.newMap _)) fun v => ?_
      cases v with
      | map id => exact hrel.bind (hrel.addEntries hg id entries) fun _ => hrel.pure _
      | nil | boolean | number | string | function | native | «class» | «instance» | list =>
          exact hrel.pure _
  | index object index span =>
      refine hrel.bind (hg.evaluate object) fun o => hrel.bind (hg.evaluate index) fun i => ?_
      exact hrel.elementary (.item o i)
  | indexSet object index value span =>
      refine hrel.bind (hg.evaluate object) fun o => hrel.bind (hg.evaluate index) fun i => ?_
      refine hrel.bind (hg.evaluate value) fun v => ?_
      exact hrel.elementary (.setItem o i v)
  | function params body span =>
      exact hrel.elementary (.makeClosure "lambda" params body)

end Expressions

section Loops

include hrel hg

theorem loopBody (body : Stmt) : rel (Eval.loopBody g body) (Eval.loopBody g' body) :=
  hrel.executeBlock hg [body] []

theorem whileIterations (condition : Expr) (body : Stmt) (fuel : Nat) :
    rel (Eval.whileIterations g condition body fuel)
      (Eval.whileIterations g' condition body fuel) := by
  induction fuel with
  | zero => exact hrel.outOfFuel
  | succ fuel ih =>
      refine hrel.bind (hg.evaluate condition) fun c => ?_
      split
      · refine hrel.bind (hrel.loopBody hg body) fun signal => ?_
        cases signal with
        | normal => exact ih
        | continued => exact ih
        | broke | returned | thrown => exact hrel.pure _
      · exact hrel.pure _

theorem doWhile (condition : Expr) (body : Stmt) (fuel : Nat) :
    rel (Eval.doWhile g condition body fuel) (Eval.doWhile g' condition body fuel) := by
  refine hrel.bind (hrel.loopBody hg body) fun signal => ?_
  cases signal with
  | normal => exact hrel.whileIterations hg condition body fuel
  | continued => exact hrel.whileIterations hg condition body fuel
  | broke | returned | thrown => exact hrel.pure _

theorem holds (condition : Option Expr) :
    rel (Eval.holds g condition) (Eval.holds g' condition) := by
  cases condition with
  | none => exact hrel.pure _
  | some e => exact hrel.bind (hg.evaluate e) fun _ => hrel.pure _

theorem advance (isFirst : Bool) (increment : Option Expr) :
    rel (Eval.advance g isFirst increment) (Eval.advance g' isFirst increment) := by
  cases increment with
  | none => cases isFirst <;> exact hrel.pure _
  | some e =>
      cases isFirst with
      | true => exact hrel.pure _
      | false => exact hrel.bind (hg.evaluate e) fun _ => hrel.pure _

theorem forIterations
    (condition increment : Option Expr)
    (body : Stmt)
    (fuel : Nat)
    (isFirst : Bool)
    (before : ScopeId) :
    rel (Eval.forIterations g condition increment body fuel isFirst before)
      (Eval.forIterations g' condition increment body fuel isFirst before) := by
  induction fuel generalizing isFirst before with
  | zero => exact hrel.outOfFuel
  | succ fuel ih =>
      refine hrel.bind (hrel.elementary (.enterCopy before)) fun scope => ?_
      refine hrel.bind (hrel.advance hg isFirst increment) fun _ => ?_
      refine hrel.bind (hrel.holds hg condition) fun c => ?_
      split
      · refine hrel.bind (hrel.loopBody hg body) fun signal => ?_
        cases signal with
        | normal => exact ih false scope
        | continued => exact ih false scope
        | broke | returned | thrown => exact hrel.pure _
      · exact hrel.pure _

theorem executeFor
    (initial : Option Stmt)
    (condition increment : Option Expr)
    (body : Stmt)
    (fuel : Nat) :
    rel (Eval.executeFor g initial condition increment body fuel)
      (Eval.executeFor g' initial condition increment body fuel) := by
  refine hrel.inInnerScope [] (hrel.bind (hrel.executeOptional hg initial) fun signal => ?_)
  cases signal with
  | normal =>
      refine hrel.bind (hrel.ask _) fun scope => ?_
      exact hrel.forIterations hg condition increment body fuel true scope
  | returned | broke | continued | thrown => exact hrel.pure _

end Loops

section Statements

include hrel hg

theorem declareClass
    (name : String)
    (superclass : Option (String × Span))
    (methods : List FunctionDecl) :
    rel (Eval.declareClass g name superclass methods)
      (Eval.declareClass g' name superclass methods) := by
  refine hrel.bind ?_ fun parent => hrel.elementary (.defineClass name parent methods)
  cases superclass with
  | none => exact hrel.pure _
  | some superclass =>
      refine hrel.bind (hg.evaluate _) fun v => ?_
      cases v with
      | «class» id => exact hrel.pure _
      | nil | boolean | number | string | function | native | «instance» | list | map =>
          exact hrel.elementary (.failAt _ (Fault.message_ne _) _)

theorem executeHandler (handler : Option CatchClause) (signal : Signal) :
    rel (Eval.executeHandler g handler signal) (Eval.executeHandler g' handler signal) := by
  fun_cases Eval.executeHandler g handler signal
  · exact hrel.executeBlock hg _ _
  · next hne =>
      unfold Eval.executeHandler
      split
      · exact absurd rfl (hne _ _ _ rfl)
      · exact hrel.pure _

theorem executeTry
    (body : List Stmt)
    (handler : Option CatchClause)
    (cleanup : Option (List Stmt)) :
    rel (Eval.executeTry g body handler cleanup) (Eval.executeTry g' body handler cleanup) := by
  refine hrel.bind (hrel.executeBlock hg body []) fun first => ?_
  refine hrel.bind (hrel.executeHandler hg handler first) fun signal => ?_
  cases cleanup with
  | none => exact hrel.pure _
  | some statements =>
      refine hrel.bind (hrel.executeBlock hg statements []) fun last => ?_
      cases last <;> exact hrel.pure _

theorem executeStep (s : Stmt) :
    rel (Eval.executeStep limits g s) (Eval.executeStep limits' g' s) := by
  refine hrel.settle s.span ?_
  rw [← hrel.fuel_eq]
  cases s with
  | expression e span =>
      refine hrel.bind (hg.evaluate e) fun v => ?_
      exact hrel.bind (hrel.elementary (.update fun _ => rfl)) fun _ => hrel.pure _
  | print e span =>
      refine hrel.bind (hg.evaluate e) fun v => hrel.bind (hrel.ask _) fun line => ?_
      exact hrel.bind (hrel.elementary (.printLine line)) fun _ => hrel.pure _
  | declare name initial isConst span =>
      refine hrel.bind (hrel.evaluateOptional hg initial) fun v => ?_
      exact hrel.bind (hrel.elementary (.define name v isConst)) fun _ => hrel.pure _
  | block statements span => exact hrel.executeBlock hg statements []
  | ifElse condition thenBranch elseBranch span =>
      refine hrel.bind (hg.evaluate condition) fun c => ?_
      split
      · exact hg.execute thenBranch
      · cases elseBranch with
        | none => exact hrel.pure _
        | some s => exact hg.execute s
  | whileLoop condition body span => exact hrel.whileIterations hg condition body _
  | doWhile body condition span => exact hrel.doWhile hg condition body _
  | forLoop initial condition increment body span =>
      exact hrel.executeFor hg initial condition increment body _
  | breakLoop span => exact hrel.pure _
  | continueLoop span => exact hrel.pure _
  | function d => exact hrel.elementary (.declareFunction d)
  | returnValue value span =>
      exact hrel.bind (hrel.evaluateOptional hg value) fun _ => hrel.pure _
  | classDecl name superclass methods span => exact hrel.declareClass hg name superclass methods
  | tryBlock body handler cleanup span => exact hrel.executeTry hg body handler cleanup
  | throwValue value span =>
      exact hrel.bind (hg.evaluate value) fun _ => hrel.bind (hrel.ask _) fun _ => hrel.pure _
  | dump span => exact hrel.elementary .dumpBindings

theorem runStatements (echo : Bool) (statements : List Stmt) :
    rel (Eval.runStatements g echo statements) (Eval.runStatements g' echo statements) := by
  induction statements with
  | nil => exact hrel.pure _
  | cons s rest ih =>
      have hrest :
          rel
            (if echo then echoValue s >>= fun _ => Eval.runStatements g echo rest
              else Eval.runStatements g echo rest)
            (if echo then echoValue s >>= fun _ => Eval.runStatements g' echo rest
              else Eval.runStatements g' echo rest) := by
        split
        · exact hrel.bind (hrel.elementary (.echoValue s)) fun _ => ih
        · exact ih
      refine hrel.bind (hg.execute s) fun signal => ?_
      cases signal with
      | thrown t => exact hrel.pure _
      | normal => exact hrest
      | returned v => exact hrest
      | broke => exact hrest
      | continued => exact hrest

/-- Evaluators that use related ones for the parts are related. -/
theorem tie :
    Evaluator.Related rel
      ⟨Eval.evaluateStep limits g, Eval.executeStep limits g, Eval.executeAll g⟩
      ⟨Eval.evaluateStep limits' g', Eval.executeStep limits' g', Eval.executeAll g'⟩ :=
  ⟨hrel.evaluateStep hg, hrel.executeStep hg, hrel.executeAll hg⟩

end Statements

end Eval.Congruence

end Lox
