import Lox.Proofs.Agreement
import Lox.Proofs.Tree.Parts

/-!
# Simulations

A simulation compares two runs of the same code. It relates two machines by `rel`, which depends
on the *setting* of the code that runs, known from the text of the program, and on a *place*,
known only while the program runs. A `Discipline` says which code may run in which setting;
`Simulation.Lawful` lists what is to be shown of a simulation: one law for each way to enter and
leave a scope or call, and one for each operation that runs no code of the program.

That the laws are enough is shown in `Lox.Proofs.Simulation.Statement`.
-/

namespace Lox

/-- Does the value refer to no object? -/
def Value.isPlain : Value → Bool
  | nil | boolean _ | number _ | string _ => true
  | function _ | native _ | «class» _ | «instance» _ | list _ | map _ => false

/-- What stops a computation carries only values with the property. -/
def Interruption.Carries (value : Value → Prop) : Interruption → Prop
  | thrown t => value t.payload
  | failed _ | exhausted | outOfFuel => True

namespace Machine

/-- Inside a new scope within `parent` that has some bindings from the beginning. -/
def enter (m : Machine) (parent : ScopeId) (bindings : List Binding) : Machine :=
  let (id, n) := m.newScope parent
  { bindings.foldl (fun n b => n.define id b) n with current := id }

/-- Inside a copy of a scope. -/
def enterCopy (m : Machine) (scope : ScopeId) : Machine :=
  let (scopes, id) := m.scopes.copy scope
  { m with scopes := scopes, current := id }

/-- Back in an earlier scope. -/
def leave (m : Machine) (previous : ScopeId) : Machine :=
  { m with current := previous }

/-- Inside one more call. -/
def pushFrame (m : Machine) (frame : Frame) : Machine :=
  { m with frames := frame :: m.frames }

/-- Outside of the innermost call. -/
def popFrame (m : Machine) : Machine :=
  { m with frames := m.frames.tail }

/-- With `this` bound to an instance in a new scope within `parent`. -/
def bindThis (m : Machine) (parent : ScopeId) (receiver : InstanceId) : Machine :=
  let (id, n) := m.newScope parent
  n.define id ⟨"this", .instance receiver, false⟩

/-- With `super` bound to a class in a new scope within `parent`. -/
def bindSuper (m : Machine) (parent : ScopeId) (superclass : ClassId) : Machine :=
  let (id, n) := m.newScope parent
  n.define id ⟨"super", .class superclass, false⟩

end Machine

/-- The bindings of parameters to arguments. -/
def parameterBindings (params : List String) (arguments : List Value) : List Binding :=
  (params.zip arguments).map fun p => Binding.mk p.1 p.2 false

/-- Which code may run in which setting. -/
structure Discipline where
  Setting : Type
  /-- May any code run in the setting? -/
  runs : Setting → Prop
  expr : Setting → Expr → Prop
  stmt : Setting → Stmt → Prop
  /-- May the statements run in the setting as the body of a function? -/
  body : Setting → List Stmt → Prop
  /-- May a scope in the setting bind the name from the beginning? -/
  binds : Setting → String → Prop
  /-- May a statement end the iteration of a loop around the setting? -/
  breaks : Setting → Prop
  /-- May a statement end a function around the setting? -/
  returns : Setting → Prop
  /-- The setting in a block. -/
  block : Setting → Setting
  /-- The setting in the body of a loop. -/
  loop : Setting → Setting
  runs_expr : ∀ {k e}, expr k e → runs k
  runs_stmt : ∀ {k s}, stmt k s → runs k
  body_stmts : ∀ {k b}, body k b → ∀ s ∈ b, stmt k s
  runs_block : ∀ {k}, runs k → runs (block k)
  block_block : ∀ k, block (block k) = block k
  expr_block : ∀ {k e}, expr k e → expr (block k) e
  expr_parts : ∀ {k e}, expr k e → ∀ part ∈ e.parts, expr k part
  stmt_expressions : ∀ {k s}, stmt k s → ∀ e ∈ s.expressions, expr k e
  stmt_branches : ∀ {k s}, stmt k s → ∀ t ∈ s.branches, stmt k t
  stmt_inner : ∀ {k s}, stmt k s → ∀ t ∈ s.inner, stmt (block k) t
  stmt_loopBody : ∀ {k s}, stmt k s → ∀ t ∈ s.loopBody?, stmt (loop (block k)) t
  stmt_handlerNames : ∀ {k s}, stmt k s → ∀ name ∈ s.handlerNames, binds k name
  stmt_break : ∀ {k span}, stmt k (.breakLoop span) → breaks k
  stmt_continue : ∀ {k span}, stmt k (.continueLoop span) → breaks k
  stmt_return : ∀ {k value span}, stmt k (.returnValue value span) → returns k
  breaks_block : ∀ {k}, breaks (block k) → breaks k
  returns_block : ∀ {k}, returns (block k) → returns k
  returns_loop : ∀ {k}, returns (loop k) → returns k

/-- What is compared of two runs, and where. -/
structure Simulation (code : Discipline) where
  Place : Type
  /-- The scope that is current at a place. -/
  scope : Place → ScopeId
  rel : code.Setting → Place → Machine → Machine → Prop
  /-- The places that the iterations of a loop have in turn. -/
  beside : Place → Place → Prop
  /-- The values that may be met. -/
  value : Value → Prop
  /-- The methods that may be met. -/
  method : MethodId → Prop

namespace Simulation

variable {code : Discipline} (S : Simulation code)

/-- The signals with which a statement in the setting may end. -/
def signal (k : code.Setting) : Signal → Prop
  | .normal => True
  | .returned v => code.returns k ∧ S.value v
  | .broke | .continued => code.breaks k
  | .thrown t => S.value t.payload

/-- The computations end alike, with results that satisfy `V` and on machines related as before. -/
def Keeps
    {α : Type}
    (k : code.Setting)
    (p : S.Place)
    (V : α → Prop)
    (c c' : Eval α) :
    Prop :=
  Eval.Related (S.rel k p) (S.rel k p) V (Interruption.Carries S.value) c c'

/-- The operation has the same result on both machines, one that satisfies `V`, and leaves them
related as before. -/
abbrev Safe
    {α : Type}
    (k : code.Setting)
    (p : S.Place)
    (V : α → Prop)
    (c : Eval α) :
    Prop :=
  S.Keeps k p V c c

/-- When code of the setting `l` ends that started at the place `q`, the scopes that were current
on `m` and `m'` can be current again at `p`. -/
def Returns
    (k : code.Setting)
    (p : S.Place)
    (m m' : Machine)
    (l : code.Setting)
    (q : S.Place) :
    Prop :=
  ∀ r n n', S.beside q r → S.rel l r n n' →
    S.rel k p (n.leave m.current) (n'.leave m'.current)

/-- What is to be shown of a simulation. -/
structure Lawful : Prop where
  beside_refl : ∀ p, S.beside p p
  beside_trans : ∀ {p q r}, S.beside p q → S.beside q r → S.beside p r
  value_plain : ∀ {v : Value}, v.isPlain = true → S.value v
  /-- Where code runs, the same scope is current on both machines. -/
  current : ∀ {k p m m'}, code.runs k → S.rel k p m m' →
    m.current = S.scope p ∧ m'.current = S.scope p
  frames : ∀ {k p m m'}, S.rel k p m m' → m.frames = m'.frames
  loop : ∀ {k p m m'}, S.rel (code.loop (code.block k)) p m m' ↔ S.rel (code.block k) p m m'
  enter : ∀ {k p m m' bindings}, code.runs k → S.rel k p m m' →
    (∀ b ∈ bindings, code.binds k b.name ∧ S.value b.value) →
    ∃ q, S.rel (code.block k) q (m.enter m.current bindings) (m'.enter m'.current bindings) ∧
      S.Returns k p m m' (code.block k) q
  copy : ∀ {k p m m'}, code.runs k → S.rel (code.block k) p m m' →
    ∃ q, S.beside p q ∧ S.rel (code.block k) q (m.enterCopy m.current) (m'.enterCopy m'.current)
  call : ∀ {k p m m'} (frame : Frame), S.rel k p m m' →
    ∃ q, S.rel k q (m.pushFrame frame) (m'.pushFrame frame) ∧
      ∀ n n', S.rel k q n n' → S.rel k p n.popFrame n'.popFrame
  callee : ∀ {k p m m' v}, S.value v → S.rel k p m m' →
    Eval.arity? m v = Eval.arity? m' v ∧ Eval.calleeName m v = Eval.calleeName m' v
  function : ∀ {k p m m' id}, S.value (.function id) → S.rel k p m m' →
    m.functions[id]? = m'.functions[id]?
  bound : ∀ {k p m m' id receiver method}, S.value (.function id) → S.rel k p m m' →
    m.functions[id]? = some (.bound receiver method) →
    S.value (.instance receiver) ∧ S.method method
  /-- The body of a function runs in a setting of its own. -/
  closure : ∀ {k p m m' id name params body scope arguments},
    S.value (.function id) → S.rel k p m m' →
    m.functions[id]? = some (.closure name params body scope) →
    (∀ v ∈ arguments, S.value v) →
    ∃ l q, code.body l body ∧
      S.rel l q (m.enter scope (parameterBindings params arguments))
        (m'.enter scope (parameterBindings params arguments)) ∧
      S.Returns k p m m' l q
  findMethod : ∀ {k p m m' id} (name : String), S.value (.class id) → S.rel k p m m' →
    m.findMethod? id name = m'.findMethod? id name ∧
      ∀ method ∈ m.findMethod? id name, S.method method
  methods : ∀ {k p m m' id}, S.method id → S.rel k p m m' → m.methods[id]? = m'.methods[id]?
  /-- The body of a method runs in a setting of its own, with `this` bound around its parameters. -/
  methodBody : ∀ {k p m m' id f receiver arguments},
    S.method id → S.value (.instance receiver) → S.rel k p m m' →
    m.methods[id]? = some f →
    (∀ v ∈ arguments, S.value v) →
    ∃ l q, code.body l f.body ∧
      S.rel l q
        ((m.bindThis f.scope receiver).enter (m.newScope f.scope).1
          (parameterBindings f.params arguments))
        ((m'.bindThis f.scope receiver).enter (m'.newScope f.scope).1
          (parameterBindings f.params arguments)) ∧
      S.Returns k p m m' l q
  newInstance : ∀ {k p m m' id}, S.value (.class id) → S.rel k p m m' →
    (m.newInstance id).1 = (m'.newInstance id).1 ∧ S.value (.instance (m.newInstance id).1) ∧
      S.rel k p (m.newInstance id).2 (m'.newInstance id).2
  native : ∀ {k p id arguments}, S.value (.native id) → (∀ v ∈ arguments, S.value v) →
    S.Safe k p S.value (Eval.callNative id arguments)
  lookup : ∀ {k p name span}, code.expr k (.reference name span) →
    S.Safe k p S.value (Eval.lookup name)
  this : ∀ {k p span}, code.expr k (.this span) → S.Safe k p S.value (Eval.lookup "this")
  super : ∀ {k p method span}, code.expr k (.super method span) →
    S.Safe k p S.value (Eval.evaluateSuper method)
  assign : ∀ {k p name e span v}, code.expr k (.assign name e span) → S.value v →
    S.Safe k p (fun _ => True) (Eval.assign name v)
  makeClosure : ∀ {k p params body span}, code.expr k (.function params body span) →
    S.Safe k p S.value (Eval.makeClosure "lambda" params body)
  property : ∀ {k p object} (name : String), code.runs k → S.value object →
    S.Safe k p S.value (Eval.property object name)
  setField : ∀ {k p id v} (name : String), code.runs k → S.value (.instance id) → S.value v →
    S.Safe k p (fun _ => True) (Eval.setField id name v)
  item : ∀ {k p object index}, code.runs k → S.value object → S.value index →
    S.Safe k p S.value (Eval.item object index)
  setItem : ∀ {k p object index v}, code.runs k → S.value object → S.value index → S.value v →
    S.Safe k p S.value (Eval.setItem object index v)
  newList : ∀ {k p} {vs : List Value}, code.runs k → (∀ v ∈ vs, S.value v) →
    S.Safe k p S.value (Eval.make fun m => m.newList vs.toArray)
  newMap : ∀ {k p}, code.runs k → S.Safe k p S.value (Eval.make fun m => m.newMap [])
  text : ∀ {k p m m' v}, S.value v → S.rel k p m m' → m.text v = m'.text v
  print : ∀ {k p m m'} (line : String), code.runs k → S.rel k p m m' →
    S.rel k p { m with output := m.output ++ line ++ "\n" }
      { m' with output := m'.output ++ line ++ "\n" }
  lastValue : ∀ {k p m m' v}, code.runs k → S.value v → S.rel k p m m' →
    S.rel k p { m with lastValue := v } { m' with lastValue := v }
  dump : ∀ {k p span}, code.stmt k (.dump span) → S.Safe k p (S.signal k) Eval.dumpBindings
  declare : ∀ {k p name initial isConst span v},
    code.stmt k (.declare name initial isConst span) → S.value v →
    S.Safe k p (fun _ => True) (Eval.define name v isConst)
  declareFunction : ∀ {k p d}, code.stmt k (.function d) →
    S.Safe k p (S.signal k) (Eval.declareFunction d)
  defineClass : ∀ {k p name superclass methods span parent},
    code.stmt k (.classDecl name superclass methods span) →
    parent.isSome = superclass.isSome →
    (∀ id ∈ parent, S.value (.class id)) →
    S.Safe k p (S.signal k) (Eval.defineClass name parent methods)

end Simulation

end Lox
