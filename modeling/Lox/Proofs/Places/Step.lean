import Lox.Proofs.Places.Operation

/-!
# Running relocated code

Relocated expressions and statements are evaluated and executed on a relocated machine as they are
where they stood, with the outcome relocated: by induction on the room of the evaluator
(`Evaluator.ofRoom_relocates`), where each step only has to look at the evaluator of the parts.
-/

namespace Lox

/-- The evaluator runs relocated code as it runs the code. -/
structure Evaluator.Relocates (r : Relocation) (g : Evaluator) : Prop where
  evaluate : ∀ e, Lox.Relocates r (g.evaluate e) (g.evaluate (e.relocate r))
  execute : ∀ s, Lox.Relocates r (g.execute s) (g.execute (s.relocate r))
  run : ∀ body, Lox.Relocates r (g.run body) (g.run (move r body))

namespace Relocates

open Eval

variable {r : Relocation} {g : Evaluator} (hg : g.Relocates r)
include hg

section Blocks

theorem executeAll (statements : List Stmt) :
    Relocates r (Eval.executeAll g statements) (Eval.executeAll g (move r statements)) := by
  induction statements with
  | nil => exact pure rfl
  | cons s statements ih =>
      refine (hg.execute s).bind fun signal => ?_
      cases signal with
      | normal => exact ih
      | _ => exact pure rfl

theorem executeBlock (statements : List Stmt) (bindings : List Binding) :
    Relocates r (Eval.executeBlock g statements bindings)
      (Eval.executeBlock g (move r statements) bindings) :=
  inInnerScope bindings (executeAll hg statements)

theorem evaluateAll (es : List Expr) :
    Relocates r (Eval.evaluateAll g es) (Eval.evaluateAll g (move r es)) := by
  induction es with
  | nil => exact pure rfl
  | cons e es ih =>
      exact (hg.evaluate e).bind fun v => ih.bind fun vs => pure rfl

end Blocks

section Calls

omit hg in
theorem callResult (signal : Signal) :
    Relocates r (Eval.callResult signal) (Eval.callResult (move r signal)) := by
  cases signal with
  | thrown t => exact stop rfl
  | _ => exact pure rfl

theorem runBody
    (params : List String)
    (body : List Stmt)
    (scope : ScopeId)
    (arguments : List Value) :
    Relocates r (Eval.runBody g params body scope arguments)
      (Eval.runBody g params (move r body) scope arguments) :=
  (inNewScope scope _ (hg.run body)).bind callResult

theorem runMethod (receiver : InstanceId) (method : MethodId) (arguments : List Value) :
    Relocates r (Eval.runMethod g receiver method arguments)
      (Eval.runMethod g receiver method arguments) := by
  refine (ask (q := fun m => m.methods[method]?) fun m =>
    Machine.methods_move r m method).bind fun f => ?_
  cases f with
  | none => exact pure rfl
  | some f =>
      refine (make (f := fun m => m.newScope f.scope) fun _ => rfl).bind fun inner => ?_
      refine (defineIn inner ⟨"this", .instance receiver, false⟩).bind fun _ => ?_
      exact (runBody hg f.params f.body inner arguments).bind fun result => pure rfl

theorem runFunction (id : FunctionId) (arguments : List Value) :
    Relocates r (Eval.runFunction g id arguments) (Eval.runFunction g id arguments) := by
  refine (ask (q := fun m => m.functions[id]?) fun m =>
    Machine.functions_move r m id).bind fun f => ?_
  match f with
  | some (.closure _ params body scope) => exact runBody hg params body scope arguments
  | some (.bound receiver method) => exact runMethod hg receiver method arguments
  | none => exact pure rfl

theorem construct (classId : ClassId) (arguments : List Value) :
    Relocates r (Eval.construct g classId arguments) (Eval.construct g classId arguments) := by
  refine (make (f := fun m => m.newInstance classId) fun _ => rfl).bind fun id => ?_
  refine (ask (q := fun m => m.findMethod? classId "init") fun m => ?_).bind fun method => ?_
  · exact (Machine.findMethod?_move r m classId "init").trans Option.map_id'.symm
  · cases method with
    | some method => exact (runMethod hg id method arguments).bind fun _ => pure rfl
    | none => exact pure rfl

theorem invoke (callee : Value) (arguments : List Value) :
    Relocates r (Eval.invoke g callee arguments) (Eval.invoke g callee arguments) := by
  cases callee with
  | function id => exact runFunction hg id arguments
  | native id => exact callNative id arguments
  | «class» id => exact construct hg id arguments
  | _ => exact pure rfl

omit hg in
theorem arity?_move (m : Machine) (v : Value) : Eval.arity? (move r m) v = Eval.arity? m v := by
  cases v with
  | function id => exact congrArg some (Machine.functionArity_move r m id)
  | «class» id =>
      have harity : (move r m).methodArity = m.methodArity :=
        funext fun id => Machine.methodArity_move r m id
      rw [Eval.arity?, Eval.arity?, Machine.findMethod?_move, harity]
  | _ => rfl

omit hg in
theorem calleeName_move (m : Machine) (v : Value) :
    Eval.calleeName (move r m) v = Eval.calleeName m v := by
  cases v with
  | function id => exact Machine.functionQualifiedName_move r m id
  | _ => rfl

theorem callValue
    (limits : Limits)
    (callee : Value)
    (arguments : List Value)
    (site : Option Span) :
    Relocates r (Eval.callValue limits g callee arguments site)
      (Eval.callValue limits g callee arguments (move r site)) := by
  refine (ask (q := fun m => Eval.arity? m callee) fun m => ?_).bind fun expected => ?_
  · exact (arity?_move m callee).trans Option.map_id'.symm
  · cases expected with
    | none => exact fail _
    | some expected =>
        refine (ask (q := fun m => Eval.calleeName m callee) fun m =>
          calleeName_move m callee).bind fun name => ?_
        simp only [Nat.move_eq, String.move_eq, id]
        split
        · exact fail _
        · refine (ask (q := fun m => m.frames.length) fun m => List.length_map ..).bind
            fun depth => ?_
          simp only [Nat.move_eq, id]
          split
          · exact fail _
          · exact inCall rfl (invoke hg callee arguments)

end Calls

section Expressions

omit hg in
theorem makeClosure (name : String) (params : List String) (body : List Stmt) :
    Relocates r (Eval.makeClosure name params body)
      (Eval.makeClosure name params (move r body)) :=
  (ask (q := Machine.current) fun _ => rfl).bind fun scope =>
    (make fun m => Machine.newFunction_move r m (.closure name params body scope)).bind
      fun _ => pure rfl

theorem evaluateBinary (left : Expr) (op : BinaryOp) (right : Expr) :
    Relocates r (Eval.evaluateBinary g left op right)
      (Eval.evaluateBinary g (left.relocate r) op (right.relocate r)) := by
  refine (hg.evaluate left).bind fun l => (hg.evaluate right).bind fun v => ?_
  simp only [Value.move_eq, id, Expr.span_relocate]
  split
  · exact pure rfl
  · exact failAt _ _ _
  · exact failAt _ _ _
  · exact fail _

theorem addEntries (map : MapId) (entries : List MapEntry) :
    Relocates r (Eval.addEntries g map entries) (Eval.addEntries g map (move r entries)) := by
  induction entries with
  | nil => exact pure rfl
  | cons entry entries ih =>
      obtain ⟨key, value⟩ := entry
      refine (hg.evaluate key).bind fun k => (hg.evaluate value).bind fun v => ?_
      rw [Expr.span_relocate]
      exact (locating key.span (setItem (.map map) k v)).bind fun _ => ih

omit hg in
theorem evaluateSuper (method : String) :
    Relocates r (Eval.evaluateSuper method) (Eval.evaluateSuper method) := by
  refine (lookup "super").bind fun parent => (lookup "this").bind fun receiver => ?_
  simp only [Value.move_eq, id]
  split
  · next parent receiver =>
      refine (ask (q := fun m => m.findMethod? parent method) fun m => ?_).bind fun found => ?_
      · exact (Machine.findMethod?_move r m parent method).trans Option.map_id'.symm
      · cases found with
        | some id =>
            exact (make fun m => Machine.newFunction_move r m (.bound receiver id)).bind
              fun f => pure rfl
        | none => exact fail _
  · exact fail _

theorem evaluateStep (limits : Limits) (e : Expr) :
    Relocates r (Eval.evaluateStep limits g e) (Eval.evaluateStep limits g (e.relocate r)) := by
  unfold Eval.evaluateStep
  rw [Expr.span_relocate]
  refine locating e.span ?_
  cases e with
  | literal value span => exact pure rfl
  | reference name span => exact lookup name
  | assign name value span =>
      exact (hg.evaluate value).bind fun v => (assign name v).bind fun _ => pure rfl
  | binary left op right span => exact evaluateBinary hg left op right
  | unary op operand span => exact (hg.evaluate operand).bind fun v => ofValue _
  | logical left op right span =>
      refine (hg.evaluate left).bind fun l => ?_
      simp only [Value.move_eq, id]
      split
      · exact pure rfl
      · exact hg.evaluate right
  | conditional condition thenBranch elseBranch span =>
      refine (hg.evaluate condition).bind fun v => ?_
      simp only [Value.move_eq, id]
      split
      · exact hg.evaluate thenBranch
      · exact hg.evaluate elseBranch
  | call callee arguments span =>
      have harguments := evaluateAll hg arguments
      simp only [Expr.relocateAll_eq, Expr.relocate]
      exact (hg.evaluate callee).bind fun f => harguments.bind fun vs => by
        have hvs : move r vs = vs := List.map_id vs
        rw [hvs]
        exact callValue hg limits f vs (some span)
  | get object name span => exact (hg.evaluate object).bind fun v => property v name
  | set object name value span =>
      refine (hg.evaluate object).bind fun o => ?_
      cases o with
      | «instance» id =>
          exact (hg.evaluate value).bind fun v => (setField id name v).bind fun _ => pure rfl
      | _ => exact fail _
  | this span => exact lookup "this"
  | super method span => exact evaluateSuper method
  | list elements span =>
      have helements := evaluateAll hg elements
      simp only [Expr.relocateAll_eq, Expr.relocate]
      refine helements.bind fun vs => ?_
      have hvs : move r vs = vs := List.map_id vs
      rw [hvs]
      exact make fun _ => rfl
  | map entries span =>
      have hentries := fun id => addEntries hg id entries
      simp only [MapEntry.relocateAll_eq, Expr.relocate]
      refine (make (f := fun m => m.newMap []) fun _ => rfl).bind fun v => ?_
      cases v with
      | map id => exact (hentries id).bind fun _ => pure rfl
      | _ => exact pure rfl
  | index object index span =>
      exact (hg.evaluate object).bind fun o => (hg.evaluate index).bind fun i => item o i
  | indexSet object index value span =>
      exact (hg.evaluate object).bind fun o => (hg.evaluate index).bind fun i =>
        (hg.evaluate value).bind fun v => setItem o i v
  | function params body span =>
      have hbody := makeClosure (r := r) "lambda" params body
      simp only [Stmt.relocateAll_eq, Expr.relocate]
      exact hbody

end Expressions

section Loops

theorem loopBody (body : Stmt) :
    Relocates r (Eval.loopBody g body) (Eval.loopBody g (body.relocate r)) :=
  executeBlock hg [body] []

theorem whileIterations (condition : Expr) (body : Stmt) (fuel : Nat) :
    Relocates r (Eval.whileIterations g condition body fuel)
      (Eval.whileIterations g (condition.relocate r) (body.relocate r) fuel) := by
  induction fuel with
  | zero => exact stop rfl
  | succ fuel ih =>
      refine (hg.evaluate condition).bind fun v => ?_
      simp only [Value.move_eq, id]
      split
      · refine (loopBody hg body).bind fun signal => ?_
        cases signal with
        | normal => exact ih
        | continued => exact ih
        | _ => exact pure rfl
      · exact pure rfl

theorem doWhile (condition : Expr) (body : Stmt) (fuel : Nat) :
    Relocates r (Eval.doWhile g condition body fuel)
      (Eval.doWhile g (condition.relocate r) (body.relocate r) fuel) := by
  refine (loopBody hg body).bind fun signal => ?_
  cases signal with
  | normal => exact whileIterations hg condition body fuel
  | continued => exact whileIterations hg condition body fuel
  | _ => exact pure rfl

theorem holds (condition : Option Expr) :
    Relocates r (Eval.holds g condition) (Eval.holds g (move r condition)) := by
  cases condition with
  | none => exact pure rfl
  | some e => exact (hg.evaluate e).bind fun v => pure rfl

theorem advance (isFirst : Bool) (increment : Option Expr) :
    Relocates r (Eval.advance g isFirst increment) (Eval.advance g isFirst (move r increment)) := by
  cases isFirst with
  | true => exact pure rfl
  | false =>
      cases increment with
      | none => exact pure rfl
      | some e => exact (hg.evaluate e).bind fun _ => pure rfl

theorem forIterations
    (condition increment : Option Expr)
    (body : Stmt)
    (fuel : Nat)
    (isFirst : Bool)
    (before : ScopeId) :
    Relocates r (Eval.forIterations g condition increment body fuel isFirst before)
      (Eval.forIterations g (move r condition) (move r increment) (body.relocate r) fuel isFirst
        before) := by
  induction fuel generalizing isFirst before with
  | zero => exact stop rfl
  | succ fuel ih =>
      have henter : Relocates r (Eval.enterCopy before) (Eval.enterCopy before) := fun _ => rfl
      refine henter.bind fun scope => (advance hg isFirst increment).bind fun _ => ?_
      refine (holds hg condition).bind fun continues => ?_
      simp only [Bool.move_eq, id]
      split
      · refine (loopBody hg body).bind fun signal => ?_
        cases signal with
        | normal => exact ih false scope
        | continued => exact ih false scope
        | _ => exact pure rfl
      · exact pure rfl

theorem executeOptional (stmt : Option Stmt) :
    Relocates r (Eval.executeOptional g stmt) (Eval.executeOptional g (move r stmt)) := by
  cases stmt with
  | none => exact pure rfl
  | some stmt => exact hg.execute stmt

theorem executeFor
    (initial : Option Stmt)
    (condition increment : Option Expr)
    (body : Stmt)
    (fuel : Nat) :
    Relocates r (Eval.executeFor g initial condition increment body fuel)
      (Eval.executeFor g (move r initial) (move r condition) (move r increment) (body.relocate r)
        fuel) := by
  refine inInnerScope [] ((executeOptional hg initial).bind fun signal => ?_)
  cases signal with
  | normal =>
      exact (ask (q := Machine.current) fun _ => rfl).bind fun scope =>
        forIterations hg condition increment body fuel true scope
  | _ => exact pure rfl

end Loops

section Statements

omit hg in
theorem declareFunction (d : FunctionDecl) :
    Relocates r (Eval.declareFunction d) (Eval.declareFunction (d.relocate r)) := by
  obtain ⟨name, params, body, span⟩ := d
  simp only [FunctionDecl.relocate, Stmt.relocateAll_eq]
  exact (makeClosure name params body).bind fun f => (define name f false).bind fun _ => pure rfl

omit hg in
theorem makeMethods
    (owner : ClassId)
    (scope : ScopeId)
    (methods : List FunctionDecl)
    (table : List (String × MethodId)) :
    Relocates r (Eval.makeMethods owner scope methods table)
      (Eval.makeMethods owner scope (move r methods) table) := by
  induction methods generalizing table with
  | nil => exact pure (List.map_id table).symm
  | cons d methods ih =>
      obtain ⟨name, params, body, span⟩ := d
      refine (make fun m => ?_).bind fun id => ih (putNamed name id table)
      have h := Machine.newMethod_move r m ⟨name, params, body, scope, owner, name == "init"⟩
      change Machine.newMethod _ ⟨_, _, move r body, _, _, _⟩ = _ at h
      rw [List.move_eq, Stmt.move_eq, ← Stmt.relocateAll_eq] at h
      exact h

theorem evaluateSuperclass (superclass : Option (String × Span)) :
    Relocates r (Eval.evaluateSuperclass g superclass)
      (Eval.evaluateSuperclass g (move r superclass)) := by
  cases superclass with
  | none => exact pure rfl
  | some parent =>
      obtain ⟨name, span⟩ := parent
      refine (hg.evaluate (.reference name span)).bind fun v => ?_
      cases v with
      | «class» id => exact pure rfl
      | _ => exact failAt _ _ _

omit hg in
theorem classScope (parent : Option ClassId) :
    Relocates r (Eval.classScope parent) (Eval.classScope parent) := by
  cases parent with
  | none => exact ask fun _ => rfl
  | some parent =>
      refine (ask (q := Machine.current) fun _ => rfl).bind fun outer => ?_
      refine (make (f := fun m => m.newScope outer) fun _ => rfl).bind fun inner => ?_
      exact (defineIn inner ⟨"super", .class parent, false⟩).bind fun _ => pure rfl

omit hg in
theorem defineClass (name : String) (parent : Option ClassId) (methods : List FunctionDecl) :
    Relocates r (Eval.defineClass name parent methods)
      (Eval.defineClass name parent (move r methods)) := by
  refine (define name .nil false).bind fun _ => (classScope parent).bind fun scope => ?_
  refine (ask (q := fun m => m.classes.size) fun _ => rfl).bind fun owner => ?_
  refine (makeMethods owner scope methods []).bind fun table => ?_
  have htable : move r table = table := List.map_id table
  rw [htable]
  refine (make (f := fun m => m.newClass ⟨name, parent, table⟩) fun _ => rfl).bind fun id => ?_
  exact (define name (.class id) false).bind fun _ => pure rfl

theorem declareClass
    (name : String)
    (superclass : Option (String × Span))
    (methods : List FunctionDecl) :
    Relocates r (Eval.declareClass g name superclass methods)
      (Eval.declareClass g name (move r superclass) (move r methods)) := by
  refine (evaluateSuperclass hg superclass).bind fun parent => ?_
  have hparent : move r parent = parent := Option.map_id'
  rw [hparent]
  exact defineClass name parent methods

theorem executeHandler (handler : Option CatchClause) (signal : Signal) :
    Relocates r (Eval.executeHandler g handler signal)
      (Eval.executeHandler g (move r handler) (move r signal)) := by
  match handler, signal with
  | some (.mk name body), .thrown t =>
      have hbody := executeBlock hg body [⟨name, t.payload, false⟩]
      simp only [Option.move_eq, Option.map_some, CatchClause.move_eq, CatchClause.relocate,
        Stmt.relocateAll_eq]
      exact hbody
  | none, _ => exact pure rfl
  | some (.mk _ _), .normal => exact pure rfl
  | some (.mk _ _), .returned _ => exact pure rfl
  | some (.mk _ _), .broke => exact pure rfl
  | some (.mk _ _), .continued => exact pure rfl

theorem executeTry
    (body : List Stmt)
    (handler : Option CatchClause)
    (cleanup : Option (List Stmt)) :
    Relocates r (Eval.executeTry g body handler cleanup)
      (Eval.executeTry g (move r body) (move r handler) (move r cleanup)) := by
  refine (executeBlock hg body []).bind fun signal => ?_
  refine (executeHandler hg handler signal).bind fun signal => ?_
  cases cleanup with
  | none => exact pure rfl
  | some statements =>
      refine (executeBlock hg statements []).bind fun last => ?_
      cases last with
      | normal => exact pure rfl
      | _ => exact pure rfl

omit hg in
theorem dumpBindings : Relocates r Eval.dumpBindings Eval.dumpBindings := by
  have htext (m : Machine) : (move r m).text = m.text := funext (Machine.text_move r m)
  refine (ask (q := fun m => Eval.dumpLines m
    (m.scopes.chain m.current (some Machine.builtinScope))) fun m => ?_).bind fun lines => ?_
  · unfold Eval.dumpLines
    rw [htext]
    exact (List.map_id _).symm
  · have hlines : move r lines = lines := List.map_id lines
    rw [hlines]
    refine (update ?_).bind fun _ => pure rfl
    exact fun _ => rfl

theorem evaluateOptional (e : Option Expr) :
    Relocates r (Eval.evaluateOptional g e) (Eval.evaluateOptional g (move r e)) := by
  cases e with
  | none => exact pure rfl
  | some e => exact hg.evaluate e

theorem executeStep (limits : Limits) (stmt : Stmt) :
    Relocates r (Eval.executeStep limits g stmt) (Eval.executeStep limits g (stmt.relocate r)) := by
  unfold Eval.executeStep
  rw [Stmt.span_relocate]
  refine settle limits.catchFaults stmt.span ?_
  cases stmt with
  | expression e span =>
      refine (hg.evaluate e).bind fun v => ?_
      refine (update ?_).bind fun _ => pure rfl
      exact fun _ => rfl
  | print e span =>
      refine (hg.evaluate e).bind fun v => ?_
      refine (ask (q := fun m => m.text v) fun m => Machine.text_move r m v).bind fun text => ?_
      exact (printLine text).bind fun _ => pure rfl
  | declare name initial isConst span =>
      have hinitial := evaluateOptional hg initial
      simp only [Stmt.relocate, Expr.relocate?_eq]
      exact hinitial.bind fun v => (define name v isConst).bind fun _ => pure rfl
  | block statements span =>
      have hstatements := executeBlock hg statements []
      simp only [Stmt.relocate, Stmt.relocateAll_eq]
      exact hstatements
  | ifElse condition thenBranch elseBranch span =>
      refine (hg.evaluate condition).bind fun v => ?_
      simp only [Value.move_eq, id]
      split
      · exact hg.execute thenBranch
      · cases elseBranch with
        | some stmt => exact hg.execute stmt
        | none => exact pure rfl
  | whileLoop condition body span => exact whileIterations hg condition body limits.fuel
  | doWhile body condition span => exact doWhile hg condition body limits.fuel
  | forLoop initial condition increment body span =>
      have hloop := executeFor hg initial condition increment body limits.fuel
      simp only [Stmt.relocate, Stmt.relocate?_eq, Expr.relocate?_eq]
      exact hloop
  | breakLoop span => exact pure rfl
  | continueLoop span => exact pure rfl
  | function d => exact declareFunction d
  | returnValue value span =>
      have hvalue := evaluateOptional hg value
      simp only [Stmt.relocate, Expr.relocate?_eq]
      exact hvalue.bind fun v => pure rfl
  | classDecl name superclass methods span =>
      have hclass := declareClass hg name superclass methods
      simp only [Stmt.relocate, FunctionDecl.relocateAll_eq]
      exact hclass
  | tryBlock body handler cleanup span =>
      have htry := executeTry hg body handler cleanup
      simp only [Stmt.relocate, Stmt.relocateAll_eq, CatchClause.relocate?_eq,
        Stmt.relocateAll?_eq]
      exact htry
  | throwValue value span =>
      refine (hg.evaluate value).bind fun payload => ?_
      refine (ask (q := fun m => stackTrace (some span) m.frames) fun m =>
        stackTrace_move (some span) m.frames).bind fun trace => ?_
      exact pure rfl
  | dump span => exact dumpBindings

end Statements

end Relocates

/-- Every evaluator runs relocated code as it runs the code. -/
theorem Evaluator.ofRoom_relocates (r : Relocation) (limits : Limits) (room : Nat) :
    (Evaluator.ofRoom limits room).Relocates r := by
  induction room with
  | zero => exact ⟨fun _ => .stop rfl, fun _ => .stop rfl, fun _ => .stop rfl⟩
  | succ room ih =>
      exact ⟨Relocates.evaluateStep ih limits, Relocates.executeStep ih limits,
        Relocates.executeAll ih⟩

end Lox
