import Lox.Proofs.Collection
import Lox.Proofs.Grounded
import Lox.Proofs.Elementary
import Lox.Proofs.Simulation.Expression

/-!
# Operations on grounded machines

No operation makes up a reference: what it returns, throws or stores was read from the machine, was
held before, or belongs to an object that it has just made. This is said of two computations at once,
one with checks and one without (`Eval.Mirrors`); an operation runs no code, so it mirrors itself.
-/

namespace Lox

/-- The references that an outcome carries, where `parts` are those of a result. -/
def Outcome.refs {α : Type} (parts : α → List Ref) : Outcome α → List Ref
  | done a _ => parts a
  | stopped (.thrown t) _ => t.payload.refs
  | stopped _ _ => []

/-- The references that the result of an operation carries. -/
def refsOfResult {α : Type} (parts : α → List Ref) : Except Fault α → List Ref
  | .ok a => parts a
  | .error _ => []

/-- The references that a signal carries. -/
@[simp] def Signal.refs : Signal → List Ref
  | returned v => v.refs
  | thrown t => t.payload.refs
  | normal | broke | continued => []

namespace Eval

/-- With the references `uses` held, the first computation does on a grounded machine what the second
one does. It leaves the machine grounded, and what it returns refers to what is there. -/
def Mirrors {α : Type} (uses : List Ref) (parts : α → List Ref) (c' c : Eval α) : Prop :=
  ∀ (m : Machine) (held : List Ref), uses ⊆ held → m.Grounded held →
    c' m = c m ∧ (c m).machine.Grounded ((c m).refs parts ++ held)

/-- The computation leaves a machine grounded. -/
abbrev Grounds {α : Type} (uses : List Ref) (parts : α → List Ref) (c : Eval α) : Prop :=
  Mirrors uses parts c c

namespace Mirrors

variable {α β : Type} {uses : List Ref} {parts : α → List Ref} {parts' : β → List Ref}

section Rules

theorem own
    {c : Eval α}
    (h : ∀ m held, uses ⊆ held → m.Grounded held →
      (c m).machine.Grounded ((c m).refs parts ++ held)) :
    Grounds uses parts c :=
  fun m held huses hm => ⟨rfl, h m held huses hm⟩

/-- A result that consists of references that are held. -/
theorem pure {a : α} (h : parts a ⊆ uses) : Grounds uses parts (pure a) :=
  own fun _ _ huses hm => hm.append fun t ht => hm.held t (huses (h ht))

theorem stop {why : Interruption} (h : why.Carries fun v => v.refs ⊆ uses) :
    Grounds uses parts (stop why) := by
  refine own fun m held huses hm => ?_
  cases why with
  | thrown t => exact hm.append fun r hr => hm.held r (huses (h hr))
  | failed | exhausted | outOfFuel => exact hm

theorem fail (fault : Fault) : Grounds uses parts (fail fault) :=
  stop trivial

theorem ask
    {question : Machine → α}
    (h : ∀ m held, uses ⊆ held → m.Grounded held →
      ∀ t ∈ parts (question m), m.uses t = true) :
    Grounds uses parts (ask question) :=
  own fun m held huses hm => hm.append (h m held huses hm)

/-- A question whose answer refers to nothing. -/
theorem consult (question : Machine → α) : Grounds uses (fun _ => []) (Eval.ask question) :=
  ask (by simp)

theorem make
    {maker : Machine → α × Machine}
    (h : ∀ m held, uses ⊆ held → m.Grounded held →
      (maker m).2.Grounded (parts (maker m).1 ++ held)) :
    Grounds uses parts (make maker) :=
  own h

theorem update
    {change : Machine → Machine}
    (h : ∀ m held, uses ⊆ held → m.Grounded held → (change m).Grounded held) :
    Grounds uses (fun _ => []) (update change) :=
  own h

/-- A question that may have no answer. -/
theorem read
    (question : Machine → Except Fault α)
    (h : ∀ m held, uses ⊆ held → m.Grounded held →
      ∀ a, question m = .ok a → ∀ t ∈ parts a, m.uses t = true) :
    Grounds uses parts (fun m => ofExcept (question m) m) := by
  refine own fun m held huses hm => ?_
  have hresult := h m held huses hm
  generalize question m = result at hresult ⊢
  cases result with
  | ok a => exact hm.append (hresult a rfl)
  | error fault => exact hm

theorem attempt
    {operation : Machine → Attempt Machine α}
    (h : ∀ m held, uses ⊆ held → m.Grounded held →
      (operation m).2.Grounded (refsOfResult parts (operation m).1 ++ held)) :
    Grounds uses parts (attempt operation) := by
  refine own fun m held huses hm => ?_
  have hn := h m held huses hm
  unfold Eval.attempt
  generalize operation m = o at hn ⊢
  obtain ⟨result, n⟩ := o
  cases result <;> exact hn

theorem bind
    {c' c : Eval α} {f' f : α → Eval β}
    (hc : Mirrors uses parts c' c)
    (hf : ∀ a, Mirrors (parts a ++ uses) parts' (f' a) (f a)) :
    Mirrors uses parts' (c' >>= f') (c >>= f) := by
  intro m held huses hm
  obtain ⟨heq, hn⟩ := hc m held huses hm
  rw [bind_apply, bind_apply, heq]
  cases ho : c m with
  | done a n =>
      rw [ho] at hn
      obtain ⟨heq', hlast⟩ := hf a n (parts a ++ held) (List.append_subset.mpr
        ⟨List.subset_append_left _ _, List.subset_append_of_subset_right _ huses⟩) hn
      refine ⟨heq', hlast.mono fun t ht => hlast.held t ?_⟩
      rcases List.mem_append.mp ht with ht | ht
      · exact List.mem_append_left _ ht
      · exact List.mem_append_right _ (List.mem_append_right _ ht)
  | stopped why n =>
      rw [ho] at hn
      refine ⟨rfl, ?_⟩
      cases why <;> exact hn

theorem weaken
    {uses' : List Ref}
    {c' c : Eval α}
    (h : Mirrors uses parts c' c)
    (hsub : uses ⊆ uses') :
    Mirrors uses' parts c' c :=
  fun m held huses hm => h m held (List.Subset.trans hsub huses) hm

theorem locating {c' c : Eval α} (h : Mirrors uses parts c' c) (span : Span) :
    Mirrors uses parts (Eval.locating span c') (Eval.locating span c) := by
  intro m held huses hm
  obtain ⟨heq, hn⟩ := h m held huses hm
  refine ⟨by simp only [Eval.locating, heq], ?_⟩
  unfold Eval.locating
  split
  · next ho =>
      rw [ho] at hn
      exact hn
  · exact hn

/-- A check that does not fail. -/
theorem insist
    {why : Interruption} {condition : Machine → Bool} {c' c : Eval α}
    (hcondition : ∀ m held, uses ⊆ held → m.Grounded held → condition m = true)
    (h : Mirrors uses parts c' c) :
    Mirrors uses parts (Eval.insist why condition >>= fun _ => c') c := by
  intro m held huses hm
  obtain ⟨heq, hn⟩ := h m held huses hm
  refine ⟨?_, hn⟩
  rw [bind_apply, Eval.insist, hcondition m held huses hm]
  exact heq

/-- A computation on a machine that is changed on the way in and on the way out. -/
theorem around
    {c' c : Eval α}
    {m : Machine} {held : List Ref}
    (h : Mirrors uses parts c' c)
    (huses : uses ⊆ held)
    (hm : m.Grounded held)
    (outward : Machine → Machine)
    (hout : ∀ (n : Machine) more, n.Grounded (more ++ held) → (outward n).Grounded (more ++ held)) :
    (c' m).onMachine outward = (c m).onMachine outward ∧
      ((c m).onMachine outward).machine.Grounded
        (((c m).onMachine outward).refs parts ++ held) := by
  obtain ⟨heq, hn⟩ := h m held huses hm
  refine ⟨by rw [heq], ?_⟩
  cases ho : c m with
  | done a n =>
      rw [ho] at hn
      exact hout n _ hn
  | stopped why n =>
      rw [ho] at hn
      cases why <;> exact hout n _ hn

end Rules

section Objects

theorem plain {v : Value} (hv : v.isPlain = true) : Grounds uses Value.refs (Pure.pure v) :=
  pure (by rw [Value.refs_of_isPlain hv]; exact List.nil_subset _)

/-- A question with a plain answer. -/
theorem askPlain {question : Machine → Value} (h : ∀ m, (question m).isPlain = true) :
    Grounds uses Value.refs (Eval.ask question) :=
  ask fun m _ _ _ => m.sees_of_isPlain (h m)

theorem newNative
    {f : NativeObject}
    (hf : (Object.native f).refs ⊆ uses) :
    Grounds uses Value.refs (Eval.make fun m => m.newNative f) :=
  make fun m _ huses hm =>
    hm.puts_new (m.puts_newNative f) rfl fun t ht => hm.held t (huses (hf ht))

theorem newFunction
    {f : FunctionObject}
    (hf : (Object.function f).refs ⊆ uses) :
    Grounds uses (fun id => [⟨.functions, id⟩]) (Eval.make fun m => m.newFunction f) :=
  make fun m _ huses hm =>
    hm.puts_new (m.puts_newFunction f) rfl fun t ht => hm.held t (huses (hf ht))

theorem newInstance
    {id : ClassId}
    (hid : ⟨.classes, id⟩ ∈ uses) :
    Grounds uses (fun id => [⟨.instances, id⟩]) (Eval.make fun m => m.newInstance id) := by
  refine make fun m _ huses hm => hm.puts_new (m.puts_newInstance id) rfl fun t ht => ?_
  obtain rfl : t = ⟨.classes, id⟩ := by simpa [Object.refs] using ht
  exact hm.held _ (huses hid)

theorem newScope
    {parent : ScopeId}
    (hparent : ⟨.scopes, parent⟩ ∈ uses) :
    Grounds uses (fun id => [⟨.scopes, id⟩]) (Eval.make fun m => m.newScope parent) :=
  make fun m _ huses hm => hm.createInner (hm.held _ (huses hparent)) (by simp)

theorem newList
    (elements : Machine → Sequence)
    (h : ∀ m held, uses ⊆ held → m.Grounded held → ∀ v ∈ elements m, m.Sees v) :
    Grounds uses Value.refs (Eval.make fun m => m.newList (elements m)) := by
  refine make fun m held huses hm =>
    hm.puts_new (m.puts_newList (elements m)) rfl fun t ht => ?_
  obtain ⟨v, hv, ht⟩ := List.mem_flatMap.mp ht
  exact h m held huses hm v (Array.mem_toList_iff.mp hv) t ht

theorem newMap : Grounds uses Value.refs (Eval.make fun m => m.newMap []) :=
  make fun m _ _ hm => hm.puts_new (m.puts_newMap []) rfl (by simp [Object.refs])

theorem makeClosure (name : String) (params : List String) (body : List Stmt) :
    Grounds uses Value.refs (Eval.makeClosure name params body) := by
  have hcurrent : Grounds uses (fun scope => [⟨.scopes, scope⟩]) (Eval.ask (·.current)) :=
    ask fun m _ _ hm t ht => List.mem_singleton.mp ht ▸ hm.current
  exact bind hcurrent fun _ =>
    bind (newFunction (by simp [Object.refs])) fun _ => pure (by simp [Value.refs])

end Objects

section Collections

theorem onList
    {id : ListId} {operation : Sequence → Attempt Sequence Value}
    (hop : ∀ m held, uses ⊆ held → Machine.Grounded m held →
      Sequence.Keeps m.Sees operation) :
    Grounds uses Value.refs (Eval.attempt fun m => m.onList id operation) := by
  refine attempt fun m held huses hm => ?_
  obtain ⟨hresult, hleft⟩ := hop m held huses hm (m.list id) fun v hv => hm.sees_element hv
  have htaken : (m.setList id #[]).setList id (operation (m.list id)).2 =
      m.setList id (operation (m.list id)).2 := by
    simp [Machine.setList]
  change ((m.setList id #[]).setList id (operation (m.list id)).2).Grounded
    (refsOfResult Value.refs (operation (m.list id)).1 ++ held)
  rw [htaken]
  refine (hm.append fun t ht => ?_ : m.Grounded _).setList id hleft
  cases hvalue : (operation (m.list id)).1 with
  | ok v =>
      rw [hvalue] at ht
      exact hresult v hvalue t ht
  | error fault =>
      rw [hvalue] at ht
      cases ht

theorem onMap
    {id : MapId} {operation : Dictionary → Attempt Dictionary Value}
    (hop : ∀ m held, uses ⊆ held → Machine.Grounded m held →
      Dictionary.Keeps m.Sees operation) :
    Grounds uses Value.refs (Eval.attempt fun m => m.onMap id operation) := by
  refine attempt fun m held huses hm => ?_
  obtain ⟨hresult, hleft⟩ := hop m held huses hm (m.map id) fun entry hentry => hm.sees_entry hentry
  refine (hm.append fun t ht => ?_ : m.Grounded _).setMap id hleft
  change t ∈ refsOfResult Value.refs (operation (m.map id)).1 at ht
  cases hvalue : (operation (m.map id)).1 with
  | ok v =>
      rw [hvalue] at ht
      exact hresult v hvalue t ht
  | error fault =>
      rw [hvalue] at ht
      cases ht

theorem item (object index : Value) : Grounds uses Value.refs (Eval.item object index) := by
  cases object with
  | list id =>
      exact read _ fun m held _ hm v hv =>
        Sequence.item_holds (fun v hv => hm.sees_element hv) (m.sees_of_isPlain rfl) index v hv
  | map id =>
      exact read _ fun m held _ hm v hv =>
        Dictionary.item_holds (P := m.Sees) (fun entry hentry => hm.sees_entry hentry) index v hv
  | nil | boolean b | number x | string s | function id | native id | «class» id | «instance» id =>
      exact fail _

theorem setItem {v : Value} (hv : v.refs ⊆ uses) (object index : Value) :
    Grounds uses Value.refs (Eval.setItem object index v) := by
  have hsees (m : Machine) (held : List Ref) (huses : uses ⊆ held) (hm : m.Grounded held) :
      m.Sees v :=
    fun t ht => hm.held t (huses (hv ht))
  cases object with
  | list id =>
      exact onList fun m held huses hm => Sequence.keeps_setItem (hsees m held huses hm) index
  | map id =>
      exact onMap fun m held huses hm => Dictionary.keeps_setItem (hsees m held huses hm) index
  | nil | boolean b | number x | string s | function id | native id | «class» id | «instance» id =>
      exact fail _

end Collections

section Natives

theorem readClock : Grounds uses Value.refs Eval.readClock :=
  own fun _ _ _ hm => hm.of_eq (fun _ => rfl) rfl rfl

theorem lengthOf (v : Value) : Grounds uses Value.refs (Eval.lengthOf v) := by
  cases v with
  | string s => exact plain rfl
  | list id => exact askPlain fun _ => rfl
  | map id => exact askPlain fun _ => rfl
  | nil | boolean b | number x | function id | native id | «class» id | «instance» id =>
      exact fail _

theorem callBuiltin (f : Builtin) (arguments : List Value) :
    Grounds uses Value.refs (Eval.callBuiltin f arguments) := by
  unfold Eval.callBuiltin
  split
  · exact readClock
  · exact plain rfl
  · exact askPlain fun _ => rfl
  · exact lengthOf _
  · exact plain rfl

variable {arguments : List Value} (harguments : arguments.flatMap Value.refs ⊆ uses)
include harguments

theorem sees_argument
    {m : Machine} {held : List Ref} {v : Value}
    (huses : uses ⊆ held)
    (hm : m.Grounded held)
    (hv : v ∈ arguments) :
    m.Sees v :=
  fun t ht => hm.held t (huses (harguments (List.mem_flatMap.mpr ⟨v, hv, ht⟩)))

theorem callListMethod (list : ListId) (method : ListMethod) :
    Grounds uses Value.refs (Eval.callListMethod list method arguments) := by
  have hplain (m : Machine) {v : Value} : v.isPlain = true → m.Sees v := m.sees_of_isPlain
  unfold Eval.callListMethod
  split
  · exact onList fun m held huses hm =>
      Sequence.keeps_add (hplain m) (sees_argument harguments huses hm (by simp))
  · exact onList fun m _ _ _ => Sequence.keeps_pop
  · exact onList fun m held huses hm =>
      Sequence.keeps_insert (hplain m) (sees_argument harguments huses hm (by simp)) _
  · exact onList fun m _ _ _ => Sequence.keeps_removeAt (hplain m) _
  · exact askPlain fun _ => rfl
  · exact askPlain fun _ => rfl
  · refine askPlain fun m => ?_
    split <;> rfl
  · exact onList fun m _ _ _ => Sequence.keeps_clear (hplain m)
  · exact plain rfl

theorem callMapMethod (map : MapId) (method : MapMethod) :
    Grounds uses Value.refs (Eval.callMapMethod map method arguments) := by
  have hplain (m : Machine) {v : Value} : v.isPlain = true → m.Sees v := m.sees_of_isPlain
  fun_cases Eval.callMapMethod map method arguments
  · exact read _ fun m _ _ _ v hv => Dictionary.has_holds (hplain m) _ _ v hv
  · exact read _ fun m held huses hm v hv =>
      Dictionary.itemOr_holds (P := m.Sees) (fun entry hentry => hm.sees_entry hentry)
        (sees_argument harguments huses hm (by simp)) _ v hv
  · exact onMap fun m _ _ _ => Dictionary.keeps_remove (hplain m) _
  · exact newList _ fun m _ _ _ => Dictionary.keys_holds (hplain m) _
  · exact newList _ fun m _ _ hm => Dictionary.values_holds fun entry hentry => hm.sees_entry hentry
  · exact askPlain fun _ => rfl
  · exact onMap fun m _ _ _ => Dictionary.keeps_clear (hplain m)
  · exact plain rfl

theorem callNative (id : NativeId) :
    Grounds uses Value.refs (Eval.callNative id arguments) := by
  refine bind (consult _) fun found => ?_
  cases found with
  | none => exact plain rfl
  | some f =>
      cases f with
      | builtin f => exact callBuiltin f arguments
      | listMethod list method => exact callListMethod harguments list method
      | mapMethod map method => exact callMapMethod harguments map method

end Natives

section Properties

theorem bindMethod
    {receiver : InstanceId} {method : MethodId}
    (hreceiver : ⟨.instances, receiver⟩ ∈ uses)
    (hmethod : ⟨.methods, method⟩ ∈ uses) :
    Grounds uses Value.refs
      (do return Value.function (← Eval.make fun m => m.newFunction (.bound receiver method))) :=
  bind (newFunction (by simp [Object.refs, hreceiver, hmethod])) fun _ =>
    pure (by simp [Value.refs])

/-- A method that is looked up in a class. -/
theorem findMethod {question : Machine → Option MethodId}
    (h : ∀ (m : Machine) method, question m = some method →
      ∃ id name, m.findMethod? id name = some method) :
    Grounds uses (fun found => found.toList.map (⟨.methods, ·⟩)) (Eval.ask question) := by
  refine ask fun m held _ hm t ht => ?_
  obtain ⟨method, hmethod, rfl⟩ := List.mem_map.mp ht
  obtain ⟨id, name, hfound⟩ := h m method (Option.mem_toList.mp hmethod)
  exact hm.uses_of_findMethod? name hfound

theorem instanceProperty
    {id : InstanceId}
    (hid : ⟨.instances, id⟩ ∈ uses)
    (name : String) :
    Grounds uses Value.refs (Eval.instanceProperty id name) := by
  have hfields : Grounds uses (fun v : Option Value => v.toList.flatMap Value.refs)
      (Eval.ask fun m => m.instances[id]?.bind fun i => i.fields.lookup name) := by
    refine ask fun m held _ hm t ht => ?_
    obtain ⟨v, hv, ht⟩ := List.mem_flatMap.mp ht
    obtain ⟨i, hi, hlookup⟩ := Option.bind_eq_some_iff.mp (Option.mem_toList.mp hv)
    obtain ⟨before, after, hsplit, -⟩ := List.lookup_eq_some_iff.mp hlookup
    have hentry : (name, v) ∈ i.fields := by simp [hsplit]
    exact hm.sees_field hi hentry t ht
  refine bind hfields fun field => ?_
  cases field with
  | some v => exact pure (by simp)
  | none =>
      refine bind (findMethod fun _ method hmethod => ?_) fun found => ?_
      · obtain ⟨i, -, hfound⟩ := Option.bind_eq_some_iff.mp hmethod
        exact ⟨i.classId, name, hfound⟩
      · cases found with
        | some method => exact bindMethod (by simp [hid]) (by simp)
        | none => exact bind (consult _) fun _ => fail _

theorem property
    {object : Value}
    (hobject : object.refs ⊆ uses)
    (name : String) :
    Grounds uses Value.refs (Eval.property object name) := by
  cases object with
  | «instance» id => exact instanceProperty (hobject (by simp [Value.refs])) name
  | list id =>
      simp only [Eval.property, Eval.listProperty]
      split
      · exact newNative hobject
      · exact fail _
  | map id =>
      simp only [Eval.property, Eval.mapProperty]
      split
      · exact newNative hobject
      · exact fail _
  | nil | boolean b | number x | string s | function id | native id | «class» id => exact fail _

theorem setField {v : Value} (hv : v.refs ⊆ uses) (id : InstanceId) (name : String) :
    Grounds uses (fun _ => []) (Eval.setField id name v) :=
  update fun _ _ huses hm => hm.setField id name fun t ht => hm.held t (huses (hv ht))

end Properties

section Bindings

theorem lookup (name : String) : Grounds uses Value.refs (Eval.lookup name) :=
  read _ fun _ _ _ hm _ hv => hm.sees_value hv

theorem assign {v : Value} (hv : v.refs ⊆ uses) (name : String) :
    Grounds uses (fun _ => []) (Eval.assign name v) := by
  refine attempt fun m held huses hm => ?_
  have hsees : m.Sees v := fun t ht => hm.held t (huses (hv ht))
  simp only [Machine.assign, Scopes.assign]
  split
  · exact hm
  · next owner b hlookup =>
      split
      · exact hm
      · refine (hm.define ?_ : (m.define owner { b with value := v }).Grounded held)
        exact hsees

theorem define {v : Value} (hv : v.refs ⊆ uses) (name : String) (isConst : Bool) :
    Grounds uses (fun _ => []) (Eval.define name v isConst) :=
  update fun _ _ huses hm =>
    hm.define (b := ⟨name, v, isConst⟩) fun t ht => hm.held t (huses (hv ht))

theorem evaluateSuper (method : String) :
    Grounds uses Value.refs (Eval.evaluateSuper method) := by
  refine bind (lookup "super") fun parent => bind (lookup "this") fun receiver => ?_
  split
  · refine bind (findMethod fun _ found hfound => ⟨_, method, hfound⟩) fun found => ?_
    cases found with
    | some id => exact bindMethod (by simp [Value.refs]) (by simp)
    | none => exact fail _
  · exact fail _

theorem declareFunction (d : FunctionDecl) :
    Grounds uses Signal.refs (Eval.declareFunction d) :=
  bind (makeClosure d.name d.params d.body) fun _ =>
    bind (define (by simp) d.name false) fun _ => pure (by simp)

/-- A copy of a scope becomes current. -/
theorem enterCopy (scope : ScopeId) :
    Grounds uses (fun id => [⟨.scopes, id⟩]) (Eval.enterCopy scope) := by
  refine own fun m held _ hm => ?_
  have hcreated : Machine.Grounded { m with scopes := (m.scopes.copy scope).1 }
      (⟨.scopes, m.scopes.all.size⟩ :: held) := by
    refine hm.createScope fun t ht => ?_
    rcases List.mem_append.mp ht with ht | ht
    · obtain ⟨parent, hparent, rfl⟩ := List.mem_map.mp ht
      exact hm.uses_parent _ (Option.mem_toList.mp hparent)
    · obtain ⟨b, hb, ht⟩ := List.mem_flatMap.mp ht
      exact hm.sees_binding hb t ht
  exact hcreated.inScope (hcreated.held _ List.mem_cons_self)

/-- The value of a call comes from the signal of its body. -/
theorem callResult {signal : Signal} (hsignal : signal.refs ⊆ uses) :
    Grounds uses Value.refs (Eval.callResult signal) := by
  cases signal with
  | returned v => exact pure hsignal
  | thrown t => exact stop hsignal
  | normal | broke | continued => exact plain rfl

/-- What is printed refers to nothing. -/
theorem print (change : Machine → String) :
    Grounds uses (fun _ => []) (Eval.update fun m => { m with output := change m }) :=
  update fun _ _ _ hm => hm.of_eq (fun _ => rfl) rfl rfl

theorem dumpBindings : Grounds uses Signal.refs Eval.dumpBindings :=
  bind (consult _) fun _ => bind (print _) fun _ => pure (by simp)

theorem echoValue (s : Stmt) : Grounds uses (fun _ => []) (Eval.echoValue s) := by
  cases s with
  | expression e span => exact bind (consult _) fun _ => print _
  | print | declare | block | ifElse | whileLoop | doWhile | forLoop | breakLoop | continueLoop
  | function | returnValue | classDecl | tryBlock | throwValue | dump => exact pure (by simp)

theorem defineClass
    {parent : Option ClassId}
    (hparent : ∀ id ∈ parent, ⟨.classes, id⟩ ∈ uses)
    (name : String)
    (methods : List FunctionDecl) :
    Grounds uses Signal.refs (Eval.defineClass name parent methods) := by
  refine own fun m held huses hm => ?_
  obtain ⟨table, heq, htable⟩ := defineClass_eq name parent methods m
  rw [heq]
  exact hm.withClass (fun id hid => hm.held _ (huses (hparent id hid))) htable

end Bindings

end Mirrors

end Eval

end Lox
