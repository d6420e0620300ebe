import Lox.Proofs.Classes.Declaration
import Lox.Proofs.Elementary
import Lox.Proofs.Renumbering.Machine

/-!
# Operations under other scope numbers

Most operations have nothing to do with scopes at all; these are *indifferent*. The others look
up, assign to or define names, ask for the names of functions and methods, or make functions.
-/

namespace Lox

namespace Machine

/-- Which method a class has depends only on the classes. -/
theorem findMethod?_scopedAs (m o : Machine) (id : ClassId) (name : String) :
    (m.scopedAs o).findMethod? id name = m.findMethod? id name := by
  induction id using Nat.strongRecOn with
  | ind id ih =>
      have hclasses : (m.scopedAs o).classes = m.classes := rfl
      rw [findMethod?, findMethod?.eq_def m, hclasses]
      cases m.classes[id]? with
      | none => rfl
      | some c =>
          cases hfound : c.methods.lookup name with
          | some method => simp only [hfound]
          | none =>
              cases hparent : c.superclass with
              | none => simp only [hfound, hparent]
              | some parent =>
                  simp only [hfound, hparent]
                  split
                  · next hlt => exact ih parent hlt
                  · rfl

namespace Paired

variable {W : Pairing} {m m' : Machine}

theorem className_eq (h : m.Paired W m') (id : ClassId) : m.className id = m'.className id := by
  rw [h.rest]
  rfl

theorem instanceClassName_eq (h : m.Paired W m') (id : InstanceId) :
    m.instanceClassName id = m'.instanceClassName id := by
  rw [h.rest]
  rfl

theorem findMethod?_eq (h : m.Paired W m') (id : ClassId) (name : String) :
    m.findMethod? id name = m'.findMethod? id name := by
  rw [h.rest, findMethod?_scopedAs]

section Methods

theorem methodName_eq (h : m.Paired W m') (id : MethodId) :
    m.methodName id = m'.methodName id := by
  unfold methodName
  refine h.methods.cases id rfl fun f f' hf => ?_
  rw [hf.rest]
  rfl

theorem methodQualifiedName_eq (h : m.Paired W m') (id : MethodId) :
    m.methodQualifiedName id = m'.methodQualifiedName id := by
  unfold methodQualifiedName
  refine h.methods.cases id rfl fun f f' hf => ?_
  rw [hf.rest]
  simp only [h.className_eq]

theorem methodArity_eq (h : m.Paired W m') (id : MethodId) :
    m.methodArity id = m'.methodArity id := by
  unfold methodArity
  refine h.methods.cases id rfl fun f f' hf => ?_
  rw [hf.rest]
  rfl

end Methods

section Functions

theorem functionName_eq (h : m.Paired W m') (id : FunctionId) :
    m.functionName id = m'.functionName id := by
  unfold functionName
  refine h.functions.cases id rfl fun f f' hf => ?_
  cases hf with
  | closure _ => rfl
  | bound => exact h.methodName_eq _

theorem functionQualifiedName_eq (h : m.Paired W m') (id : FunctionId) :
    m.functionQualifiedName id = m'.functionQualifiedName id := by
  unfold functionQualifiedName
  refine h.functions.cases id rfl fun f f' hf => ?_
  cases hf with
  | closure _ => rfl
  | bound => exact h.methodQualifiedName_eq _

theorem functionArity_eq (h : m.Paired W m') (id : FunctionId) :
    m.functionArity id = m'.functionArity id := by
  unfold functionArity
  refine h.functions.cases id rfl fun f f' hf => ?_
  cases hf with
  | closure _ => rfl
  | bound => exact h.methodArity_eq _

theorem arity?_eq (h : m.Paired W m') (v : Value) : Eval.arity? m v = Eval.arity? m' v := by
  cases v with
  | function id => exact congrArg some (h.functionArity_eq id)
  | native id =>
      rw [h.rest]
      rfl
  | «class» id =>
      have harity : m.methodArity = m'.methodArity := funext h.methodArity_eq
      simp only [Eval.arity?, h.findMethod?_eq, harity]
  | nil | boolean | number | string | «instance» | list | map => rfl

theorem calleeName_eq (h : m.Paired W m') (v : Value) :
    Eval.calleeName m v = Eval.calleeName m' v := by
  cases v with
  | function id => exact h.functionQualifiedName_eq id
  | native id =>
      rw [h.rest]
      rfl
  | «class» id => exact h.className_eq id
  | nil | boolean | number | string | «instance» | list | map => rfl

end Functions

section Text

theorem textWithin_eq (h : m.Paired W m') (depth : Nat) (open_ : List Value) (v : Value) :
    m.textWithin depth open_ v = m'.textWithin depth open_ v := by
  induction depth generalizing open_ v with
  | zero => rfl
  | succ depth ih =>
      have hwithin : m.textWithin depth = m'.textWithin depth := by
        funext open_ v
        exact ih open_ v
      cases v with
      | function id => simp only [textWithin, h.functionName_eq]
      | list id =>
          simp only [textWithin, hwithin]
          rw [h.rest]
          rfl
      | map id =>
          simp only [textWithin, hwithin]
          rw [h.rest]
          rfl
      | native id =>
          rw [h.rest]
          rfl
      | «class» id => simp only [textWithin, h.className_eq]
      | «instance» id => simp only [textWithin, h.instanceClassName_eq]
      | nil | boolean | number | string => rfl

theorem text_eq (h : m.Paired W m') (v : Value) : m.text v = m'.text v := by
  have hcontainers : m.containers = m'.containers := by
    rw [h.rest]
    rfl
  unfold text
  rw [hcontainers]
  exact h.textWithin_eq _ [] v

/-- The same is listed of corresponding scopes. -/
theorem dumpLines_eq
    {l : Level} {a b : ScopeId}
    (h : m.Paired W m')
    (hab : W.pairs l a b) :
    Eval.dumpLines m (m.scopes.chain a (some builtinScope)) =
      Eval.dumpLines m' (m'.scopes.chain b (some builtinScope)) := by
  refine h.scopes.flatMap_chain hab fun {x y} hxy => ?_
  simp only [h.scopes.bindings (Pairing.pairs_inner hxy), h.text_eq]

end Text

end Paired

end Machine

namespace Eval

open Machine (Abreast Later)

variable {α β : Type} {l : Level}

/-- The operation neither depends on scopes, functions and methods nor changes them. -/
def Indifferent (c : Eval α) : Prop :=
  ∀ m o, c (m.scopedAs o) = (c m).onMachine (·.scopedAs o)

namespace Indifferent

variable {c : Eval α}

section Rules

theorem equivariant (h : Indifferent c) : Equivariant l c := by
  refine .of_ends fun W m m' hm => ?_
  have hself : c m = (c m).onMachine (·.scopedAs m) := h m m
  rw [hm.paired.rest, h m m']
  cases hc : c m with
  | done a n =>
      rw [hc] at hself
      exact .done trivial (hm.of_rest (Outcome.done.inj hself).2 rfl).later
  | stopped why n =>
      rw [hc] at hself
      exact .stopped trivial (hm.of_rest (Outcome.stopped.inj hself).2 rfl).later

theorem ask
    {question : Machine → α}
    (h : ∀ m o, question (m.scopedAs o) = question m) :
    Indifferent (Eval.ask question) :=
  fun m o => congrArg (Outcome.done · _) (h m o)

theorem update
    {change : Machine → Machine}
    (h : ∀ m o, change (m.scopedAs o) = (change m).scopedAs o) :
    Indifferent (Eval.update change) :=
  fun m o => congrArg (Outcome.done ()) (h m o)

/-- An answer that is a fault or a result. -/
theorem consult
    {question : Machine → Except Fault α}
    (h : ∀ m o, question (m.scopedAs o) = question m) :
    Indifferent fun m => Eval.ofExcept (question m) m := by
  intro m o
  simp only [h m o]
  cases question m <;> rfl

theorem attempt
    {operation : Machine → Attempt Machine α}
    (h : ∀ m o, operation (m.scopedAs o) = ((operation m).1, (operation m).2.scopedAs o)) :
    Indifferent (Eval.attempt operation) := by
  intro m o
  simp only [Eval.attempt, h m o]
  cases (operation m).1 <;> rfl

theorem onList (id : ListId) (operation : Sequence → Attempt Sequence α) :
    Indifferent (Eval.attempt fun m => m.onList id operation) :=
  attempt fun _ _ => rfl

theorem onMap (id : MapId) (operation : Dictionary → Attempt Dictionary α) :
    Indifferent (Eval.attempt fun m => m.onMap id operation) :=
  attempt fun _ _ => rfl

end Rules

end Indifferent

namespace Equivariant

section Collections

theorem item (object index : Value) : Equivariant l (Eval.item object index) := by
  cases object with
  | list id => exact (Indifferent.consult fun _ _ => rfl).equivariant
  | map id => exact (Indifferent.consult fun _ _ => rfl).equivariant
  | nil | boolean | number | string | function | native | «class» | «instance» => exact fail _

theorem setItem (object index v : Value) : Equivariant l (Eval.setItem object index v) := by
  cases object with
  | list id => exact (Indifferent.onList id (Sequence.setItem index v)).equivariant
  | map id => exact (Indifferent.onMap id (Dictionary.setItem index v)).equivariant
  | nil | boolean | number | string | function | native | «class» | «instance» => exact fail _

theorem newList (vs : List Value) : Equivariant l (Eval.make fun m => m.newList vs.toArray) :=
  Indifferent.equivariant fun _ _ => rfl

theorem newMap : Equivariant l (Eval.make fun m => m.newMap []) :=
  Indifferent.equivariant fun _ _ => rfl

end Collections

section Natives

theorem lengthOf (v : Value) : Equivariant l (Eval.lengthOf v) := by
  cases v with
  | string s => exact pure _
  | list id => exact (Indifferent.ask fun _ _ => rfl).equivariant
  | map id => exact (Indifferent.ask fun _ _ => rfl).equivariant
  | nil | boolean | number | function | native | «class» | «instance» => exact fail _

theorem text (v : Value) : Equivariant l (Eval.ask fun m => m.text v) :=
  ask fun _ _ _ hm => hm.text_eq v

theorem callBuiltin (f : Builtin) (arguments : List Value) :
    Equivariant l (Eval.callBuiltin f arguments) := by
  unfold Eval.callBuiltin
  split
  · exact Indifferent.equivariant fun _ _ => rfl
  · exact pure _
  · exact ask fun _ _ _ hm => congrArg Value.string (hm.text_eq _)
  · exact lengthOf _
  · exact pure _

theorem callListMethod (list : ListId) (method : ListMethod) (arguments : List Value) :
    Equivariant l (Eval.callListMethod list method arguments) := by
  unfold Eval.callListMethod
  split
  · exact (Indifferent.onList list _).equivariant
  · exact (Indifferent.onList list _).equivariant
  · exact (Indifferent.onList list _).equivariant
  · exact (Indifferent.onList list _).equivariant
  · exact (Indifferent.ask fun _ _ => rfl).equivariant
  · exact (Indifferent.ask fun _ _ => rfl).equivariant
  · exact (Indifferent.ask fun _ _ => rfl).equivariant
  · exact (Indifferent.onList list _).equivariant
  · exact pure _

theorem callMapMethod (map : MapId) (method : MapMethod) (arguments : List Value) :
    Equivariant l (Eval.callMapMethod map method arguments) := by
  fun_cases Eval.callMapMethod map method arguments
  · exact (Indifferent.consult fun _ _ => rfl).equivariant
  · exact (Indifferent.consult fun _ _ => rfl).equivariant
  · exact (Indifferent.onMap map _).equivariant
  · exact Indifferent.equivariant fun _ _ => rfl
  · exact Indifferent.equivariant fun _ _ => rfl
  · exact (Indifferent.ask fun _ _ => rfl).equivariant
  · exact (Indifferent.onMap map _).equivariant
  · exact pure _

theorem callNative (id : NativeId) (arguments : List Value) :
    Equivariant l (Eval.callNative id arguments) := by
  refine bind (Indifferent.ask fun _ _ => rfl).equivariant fun f => ?_
  cases f with
  | none => exact pure _
  | some f =>
      cases f with
      | builtin f => exact callBuiltin f arguments
      | listMethod list method => exact callListMethod list method arguments
      | mapMethod map method => exact callMapMethod map method arguments

end Natives

section Names

theorem lookup (name : String) : Equivariant l (Eval.lookup name) := by
  refine .of_ends fun W m m' hm => ?_
  unfold Eval.lookup
  rw [hm.paired.scopes.value hm.current name]
  exact (ofExcept _).ends hm

theorem assign (name : String) (v : Value) : Equivariant l (Eval.assign name v) := by
  refine .of_ends fun W m m' hm => ?_
  obtain ⟨hresult, hscopes⟩ := hm.paired.scopes.assign hm.current name v
  simp only [Eval.assign, Eval.attempt, Machine.assign, hresult]
  refine (ofExcept _).ends ⟨hm.paired.of_scopes id hscopes _ _, hm.current⟩

theorem define (name : String) (v : Value) (isConst : Bool) :
    Equivariant l (Eval.define name v isConst) := by
  refine .of_ends fun W m m' hm => .done trivial (Abreast.later ?_)
  have hscopes := hm.paired.scopes.define hm.current ⟨name, v, isConst⟩
  exact ⟨hm.paired.of_scopes id hscopes _ _, hm.current⟩

end Names

section Objects

/-- A new function that refers to corresponding scopes. -/
theorem newFunction
    {W : Pairing} {m m' : Machine} {f f' : FunctionObject}
    (hm : m.Abreast l W m')
    (hf : f.Paired W.shared f') :
    Ends l W (Eval.make (·.newFunction f) m) (Eval.make (·.newFunction f') m') := by
  simp only [Eval.make, Machine.newFunction, hm.paired.functions.size_eq]
  refine .done trivial (Abreast.later ⟨⟨hm.paired.scopes, ?_, hm.paired.methods, ?_⟩, hm.current⟩)
  · exact hm.paired.functions.push hf
  · rw [hm.paired.rest]
    rfl

theorem bindMethod (receiver : InstanceId) (method : MethodId) :
    Equivariant l (do
      return Value.function (← Eval.make fun m => m.newFunction (.bound receiver method))) :=
  bind (of_ends fun _ _ _ hm => newFunction hm .bound) fun _ => pure _

theorem findMethod? (id : ClassId) (name : String) :
    Equivariant l (Eval.ask fun m => m.findMethod? id name) :=
  ask fun _ _ _ hm => hm.findMethod?_eq id name

theorem property (object : Value) (name : String) :
    Equivariant l (Eval.property object name) := by
  cases object with
  | «instance» id =>
      refine bind (Indifferent.ask fun _ _ => rfl).equivariant fun field => ?_
      cases field with
      | some v => exact pure v
      | none =>
          refine bind (Indifferent.ask fun m o => ?_).equivariant fun found => ?_
          · simp only [Machine.instanceMethod?, Machine.findMethod?_scopedAs]
            rfl
          cases found with
          | some method => exact bindMethod id method
          | none => exact bind (Indifferent.ask fun _ _ => rfl).equivariant fun _ => fail _
  | list id =>
      simp only [Eval.property, Eval.listProperty]
      split
      · exact Indifferent.equivariant fun _ _ => rfl
      · exact fail _
  | map id =>
      simp only [Eval.property, Eval.mapProperty]
      split
      · exact Indifferent.equivariant fun _ _ => rfl
      · exact fail _
  | nil | boolean | number | string | function | native | «class» => exact fail _

theorem setField (id : InstanceId) (name : String) (v : Value) :
    Equivariant l (Eval.setField id name v) :=
  (Indifferent.update fun _ _ => rfl).equivariant

theorem evaluateSuper (method : String) : Equivariant l (Eval.evaluateSuper method) := by
  refine bind (lookup "super") fun parent => bind (lookup "this") fun receiver => ?_
  split
  · refine bind (findMethod? _ method) fun found => ?_
    cases found with
    | some id => exact bindMethod _ id
    | none => exact fail _
  · exact fail _

end Objects

section Declarations

/-- A function may be made where scopes are shared. -/
theorem makeClosure (name : String) (params : List String) (body : List Stmt) :
    Equivariant .shared (Eval.makeClosure name params body) := by
  refine inPlace fun W a b hab => Parallel.bind (.of_ends fun V m m' hwithin hm => ?_) fun _ => ?_
  · exact newFunction hm (.closure (hwithin.shared hab))
  · exact pure _ W

theorem declareFunction (d : FunctionDecl) : Equivariant .shared (Eval.declareFunction d) :=
  bind (makeClosure _ _ _) fun _ => bind (define _ _ _) fun _ => pure _

/-- Methods that close over corresponding scopes. -/
theorem makeMethods
    {W : Pairing} {a b : ScopeId}
    (hab : W.shared a b)
    (owner : ClassId)
    (ds : List FunctionDecl)
    (table : List (String × MethodId)) :
    Parallel .shared W (Eval.makeMethods owner a ds table) (Eval.makeMethods owner b ds table) := by
  induction ds generalizing table with
  | nil => exact pure table W
  | cons d rest ih =>
      refine Parallel.bind (.of_ends fun V m m' hwithin hm => ?_) fun id => ih _
      simp only [Eval.make, Machine.newMethod, hm.paired.methods.size_eq]
      refine .done trivial
        (Abreast.later ⟨⟨hm.paired.scopes, hm.paired.functions, ?_, ?_⟩, hm.current⟩)
      · exact hm.paired.methods.push ⟨hwithin.shared hab, rfl⟩
      · rw [hm.paired.rest]
        rfl

/-- What is done with the scope that the methods of a class close over. -/
theorem inClassScope
    {f : ScopeId → Eval α}
    (hf : ∀ W a b, W.shared a b → Parallel .shared W (f a) (f b))
    (parent : Option ClassId) :
    Equivariant .shared (classScope parent >>= f) := by
  refine of_ends fun W m m' hm => ?_
  rw [bind_apply, bind_apply, classScope_eq, classScope_eq]
  cases parent with
  | none => exact hf W _ _ hm.current _ _ hm.later
  | some parent =>
      have hwithin := W.within_add .shared m.scopes.all.size m'.scopes.all.size
      refine Ends.mono (hf _ _ _ (W.pairs_add .shared ..) _ _ (Abreast.later ?_)) hwithin
      exact ⟨hm.paired.create hm.current _ _ _, hwithin.pairs hm.current⟩

/-- A class may be declared where scopes are shared. -/
theorem defineClass (name : String) (parent : Option ClassId) (methods : List FunctionDecl) :
    Equivariant .shared (Eval.defineClass name parent methods) := by
  refine bind (define _ _ _) fun _ => inClassScope (fun W a b hab => ?_) parent
  refine Parallel.bind ((Indifferent.ask fun _ _ => rfl).equivariant W) fun owner => ?_
  refine Parallel.bind (makeMethods hab owner methods []) fun table => ?_
  refine Parallel.bind (Indifferent.equivariant (fun _ _ => rfl) W) fun id => ?_
  exact bind (define _ _ _) (fun _ => pure _) W

end Declarations

section Output

theorem printLine (line : String) : Equivariant l (Eval.printLine line) :=
  (Indifferent.update fun _ _ => rfl).equivariant

theorem dumpBindings : Equivariant l Eval.dumpBindings := by
  refine bind (of_ends fun W m m' hm => ?_) fun lines => bind ?_ fun _ => pure _
  · simp only [Eval.ask, hm.paired.dumpLines_eq hm.current]
    exact .done trivial hm.later
  · exact (Indifferent.update fun _ _ => rfl).equivariant

end Output

end Equivariant

end Eval

end Lox
