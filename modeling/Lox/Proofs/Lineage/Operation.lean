import Lox.Proofs.Lineage
import Lox.Proofs.Elementary

/-!
# Operations and the classes that they know

No operation makes up a class. What it returns, throws or stores was stored or in flight before,
or is a class that it has just made.
-/

namespace Lox

/-- The values that an outcome carries, where `parts` are those of a result. -/
def Outcome.values {α : Type} (parts : α → List Value) : Outcome α → List Value
  | done a _ => parts a
  | stopped (.thrown t) _ => [t.payload]
  | stopped _ _ => []

/-- The values that a signal carries. -/
@[simp] def Signal.values : Signal → List Value
  | returned v => [v]
  | thrown t => [t.payload]
  | normal | broke | continued => []

namespace Eval

/-- With the values `uses` in flight, the operation goes from a machine that knows its classes to
another one, and what it returns consists of known values. All that was in flight stays known. -/
def Knows {α : Type} (uses : List Value) (parts : α → List Value) (c : Eval α) : Prop :=
  ∀ (m : Machine) (held : List Value), uses ⊆ held → m.Knows held →
    (c m).machine.Knows ((c m).values parts ++ held)

namespace Knows

variable {α β : Type} {uses : List Value} {parts : α → List Value} {parts' : β → List Value}

section Rules

/-- A result that consists of values in flight and of values that are no classes. -/
theorem pure {a : α} (h : ∀ v ∈ parts a, v ∈ uses ∨ ∀ count, v.Known count) :
    Knows uses parts (pure a) := by
  intro m held huses hm
  exact hm.append fun v hv => (h v hv).elim (fun hv => hm.inFlight v (huses hv)) (· _)

theorem stop {why : Interruption} (h : why.Carries (· ∈ uses)) :
    Knows uses parts (stop why) := by
  intro m held huses hm
  cases why with
  | thrown t =>
      refine hm.append fun v hv => ?_
      rw [List.mem_singleton.mp hv]
      exact hm.inFlight _ (huses h)
  | failed | exhausted | outOfFuel => exact hm

theorem fail (fault : Fault) : Knows uses parts (fail fault) :=
  stop trivial

theorem ask
    {question : Machine → α}
    (h : ∀ m held, uses ⊆ held → m.Knows held →
      ∀ v ∈ parts (question m), v.Known m.classes.size) :
    Knows uses parts (ask question) :=
  fun m held huses hm => hm.append (h m held huses hm)

/-- A question whose answer is no value. -/
theorem consult (question : Machine → α) : Knows uses (fun _ => []) (Eval.ask question) :=
  ask (by simp)

theorem make
    {maker : Machine → α × Machine}
    (h : ∀ m held, uses ⊆ held → m.Knows held →
      (maker m).2.Knows (parts (maker m).1 ++ held)) :
    Knows uses parts (make maker) :=
  h

theorem update
    {change : Machine → Machine}
    (h : ∀ m held, uses ⊆ held → m.Knows held → (change m).Knows held) :
    Knows uses (fun _ => []) (update change) :=
  h

/-- A question that may have no answer. -/
theorem read
    {question : Machine → Except Fault α}
    (h : ∀ m held, uses ⊆ held → m.Knows held →
      ∀ a, question m = .ok a → ∀ v ∈ parts a, v.Known m.classes.size) :
    Knows uses parts (fun m => ofExcept (question m) m) := by
  intro m held huses hm
  simp only []
  cases hresult : question m with
  | ok a => exact hm.append (h m held huses hm a hresult)
  | error fault => exact hm

theorem attempt
    {operation : Machine → Attempt Machine α}
    (h : ∀ m held, uses ⊆ held → m.Knows held → (operation m).2.Knows held ∧
      ∀ a, (operation m).1 = .ok a → ∀ v ∈ parts a, v.Known (operation m).2.classes.size) :
    Knows uses parts (attempt operation) := by
  intro m held huses hm
  obtain ⟨hn, hresult⟩ := h m held huses hm
  simp only [Eval.attempt]
  cases ho : (operation m).1 with
  | ok a => exact hn.append (hresult a ho)
  | error fault => exact hn

theorem bind
    {c : Eval α}
    {f : α → Eval β}
    (hc : Knows uses parts c)
    (hf : ∀ a, Knows (parts a ++ uses) parts' (f a)) :
    Knows uses parts' (c >>= f) := by
  intro m held huses hm
  have hn := hc m held huses hm
  rw [bind_apply]
  cases ho : c m with
  | done a n =>
      rw [ho] at hn
      have hlast := hf a n (parts a ++ held) (List.append_subset.mpr
        ⟨List.subset_append_left _ _, List.subset_append_of_subset_right _ huses⟩) hn
      refine hlast.mono fun v hv => hlast.inFlight v ?_
      simp only [List.mem_append] at hv ⊢
      exact hv.imp_right .inr
  | stopped why n =>
      rw [ho] at hn
      cases why <;> exact hn

theorem locating {c : Eval α} (h : Knows uses parts c) (span : Span) :
    Knows uses parts (Eval.locating span c) := by
  intro m held huses hm
  have hn := h m held huses hm
  unfold Eval.locating
  split
  · next ho =>
      rw [ho] at hn
      exact hn
  · exact hn

theorem weaken
    {uses' : List Value}
    {c : Eval α}
    (h : Knows uses parts c)
    (hsub : uses ⊆ uses') :
    Knows uses' parts c :=
  fun m held huses hm => h m held (List.Subset.trans hsub huses) hm

end Rules

section Objects

theorem newNative (f : NativeObject) : Knows uses ([·]) (Eval.make fun m => m.newNative f) := by
  refine make fun m held _ hm => ?_
  have hn := hm.puts (m.puts_newNative f) rfl fun o ho v hv => by
    cases ho
    cases hv
  exact hn.append (by simp [Machine.newNative])

theorem newFunction (f : FunctionObject) :
    Knows uses (fun _ => []) (Eval.make fun m => m.newFunction f) := by
  refine make fun m held _ hm => hm.puts (m.puts_newFunction f) rfl fun o ho v hv => ?_
  cases ho
  cases hv

theorem newMethod (f : MethodObject) :
    Knows uses (fun _ => []) (Eval.make fun m => m.newMethod f) := by
  refine make fun m held _ hm => hm.puts (m.puts_newMethod f) rfl fun o ho v hv => ?_
  cases ho
  cases hv

theorem newInstance (id : ClassId) :
    Knows uses (fun _ => []) (Eval.make fun m => m.newInstance id) := by
  refine make fun m held _ hm => hm.puts (m.puts_newInstance id) rfl fun o ho v hv => ?_
  cases ho
  cases hv

theorem newScope (parent : ScopeId) :
    Knows uses (fun _ => []) (Eval.make fun m => m.newScope parent) :=
  make fun _ _ _ hm => hm.createScope (by simp)

theorem newList
    {elements : Machine → Sequence}
    (h : ∀ m held, uses ⊆ held → m.Knows held → ∀ v ∈ elements m, v.Known m.classes.size) :
    Knows uses ([·]) (Eval.make fun m => m.newList (elements m)) := by
  refine make fun m held huses hm => ?_
  have hn := hm.puts (m.puts_newList (elements m)) rfl fun o ho v hv => by
    cases ho
    exact h m held huses hm v (Array.mem_toList_iff.mp hv)
  exact hn.append (by simp [Machine.newList])

theorem newMap : Knows uses ([·]) (Eval.make fun m => m.newMap []) := by
  refine make fun m held _ hm => ?_
  have hn := hm.puts (m.puts_newMap []) rfl fun o ho v hv => by
    cases ho
    cases hv
  exact hn.append (by simp [Machine.newMap])

theorem makeClosure (name : String) (params : List String) (body : List Stmt) :
    Knows uses ([·]) (Eval.makeClosure name params body) :=
  bind (consult _) fun _ => bind (newFunction _) fun _ => pure (by simp)

end Objects

section Collections

theorem onList
    {id : ListId} {operation : Sequence → Attempt Sequence Value}
    (hop : ∀ count, (∀ v ∈ uses, v.Known count) → Sequence.Keeps (Value.Known count) operation) :
    Knows uses ([·]) (Eval.attempt fun m => m.onList id operation) := by
  refine attempt fun m held huses hm => ?_
  obtain ⟨hresult, hleft⟩ := hop m.classes.size (fun v hv => hm.inFlight v (huses hv)) (m.list id)
    fun v hv => hm.element hv
  have htaken : (m.setList id #[]).Knows held := hm.setList id (by simp)
  refine ⟨htaken.setList id hleft, fun v hv w hw => ?_⟩
  rw [List.mem_singleton.mp hw]
  exact hresult v hv

theorem onMap
    {id : MapId} {operation : Dictionary → Attempt Dictionary Value}
    (hop : ∀ count, (∀ v ∈ uses, v.Known count) →
      Dictionary.Keeps (Value.Known count) operation) :
    Knows uses ([·]) (Eval.attempt fun m => m.onMap id operation) := by
  refine attempt fun m held huses hm => ?_
  obtain ⟨hresult, hleft⟩ := hop m.classes.size (fun v hv => hm.inFlight v (huses hv)) (m.map id)
    fun entry hentry => hm.entry hentry
  refine ⟨hm.setMap id hleft, fun v hv w hw => ?_⟩
  rw [List.mem_singleton.mp hw]
  exact hresult v hv

theorem item (object index : Value) : Knows uses ([·]) (Eval.item object index) := by
  cases object with
  | list id =>
      refine read fun m held _ hm v hv => ?_
      have hknown := Sequence.item_holds (fun v hv => hm.element hv)
        (Value.known_of_isPlain rfl m.classes.size) index v hv
      simpa using hknown
  | map id =>
      refine read fun m held _ hm v hv => ?_
      have hknown := Dictionary.item_holds (P := Value.Known m.classes.size)
        (fun entry hentry => hm.entry hentry) index v hv
      simpa using hknown
  | nil | boolean b | number x | string s | function id | native id | «class» id | «instance» id =>
      exact fail _

theorem setItem {v : Value} (hv : v ∈ uses) (object index : Value) :
    Knows uses ([·]) (Eval.setItem object index v) := by
  cases object with
  | list id => exact onList fun count huses => Sequence.keeps_setItem (huses v hv) index
  | map id => exact onMap fun count huses => Dictionary.keeps_setItem (huses v hv) index
  | nil | boolean b | number x | string s | function id | native id | «class» id | «instance» id =>
      exact fail _

end Collections

section Natives

theorem plain {v : Value} (hv : v.isPlain = true) : Knows uses ([·]) (Pure.pure v) :=
  pure fun _ hw => .inr (List.mem_singleton.mp hw ▸ Value.known_of_isPlain hv)

/-- A question with a plain answer. -/
theorem askPlain {question : Machine → Value} (h : ∀ m, (question m).isPlain = true) :
    Knows uses ([·]) (Eval.ask question) :=
  ask fun m _ _ _ _ hv => List.mem_singleton.mp hv ▸ Value.known_of_isPlain (h m) _

theorem readClock : Knows uses ([·]) Eval.readClock := by
  intro m held _ hm
  have hn : Machine.Knows { m with readings := m.readings + 1 } held :=
    hm.of_eq (fun _ => rfl) rfl
  exact hn.append fun v hv => List.mem_singleton.mp hv ▸ Value.known_of_isPlain rfl _

theorem lengthOf (v : Value) : Knows uses ([·]) (Eval.lengthOf v) := by
  cases v with
  | string s => exact plain rfl
  | list id => exact askPlain fun _ => rfl
  | map id => exact askPlain fun _ => rfl
  | nil | boolean b | number x | function id | native id | «class» id | «instance» id =>
      exact fail _

theorem callBuiltin (f : Builtin) (arguments : List Value) :
    Knows uses ([·]) (Eval.callBuiltin f arguments) := by
  unfold Eval.callBuiltin
  split
  · exact readClock
  · exact plain rfl
  · exact askPlain fun _ => rfl
  · exact lengthOf _
  · exact plain rfl

theorem callListMethod
    (list : ListId)
    (method : ListMethod)
    {arguments : List Value}
    (harguments : arguments ⊆ uses) :
    Knows uses ([·]) (Eval.callListMethod list method arguments) := by
  have hplain (count : Nat) {v : Value} : v.isPlain = true → v.Known count :=
    fun h => Value.known_of_isPlain h count
  unfold Eval.callListMethod
  split
  · exact onList fun count huses =>
      Sequence.keeps_add (hplain count) (huses _ (harguments (by simp)))
  · exact onList fun count _ => Sequence.keeps_pop
  · exact onList fun count huses =>
      Sequence.keeps_insert (hplain count) (huses _ (harguments (by simp))) _
  · exact onList fun count _ => Sequence.keeps_removeAt (hplain count) _
  · exact askPlain fun _ => rfl
  · exact askPlain fun _ => rfl
  · refine askPlain fun m => ?_
    split <;> rfl
  · exact onList fun count _ => Sequence.keeps_clear (hplain count)
  · exact plain rfl

theorem callMapMethod
    (map : MapId)
    (method : MapMethod)
    {arguments : List Value}
    (harguments : arguments ⊆ uses) :
    Knows uses ([·]) (Eval.callMapMethod map method arguments) := by
  have hplain (count : Nat) {v : Value} : v.isPlain = true → v.Known count :=
    fun h => Value.known_of_isPlain h count
  fun_cases Eval.callMapMethod map method arguments
  · refine read fun m held _ _ v hv => ?_
    simpa using Dictionary.has_holds (hplain m.classes.size) _ _ v hv
  · refine read fun m held huses hm v hv => ?_
    have hknown := Dictionary.itemOr_holds (P := Value.Known m.classes.size)
      (fun entry hentry => hm.entry hentry)
      (hm.inFlight _ (huses (harguments (by simp)))) _ v hv
    simpa using hknown
  · exact onMap fun count _ => Dictionary.keeps_remove (hplain count) _
  · exact newList fun m held _ _ => Dictionary.keys_holds (hplain m.classes.size) _
  · exact newList fun m held _ hm => Dictionary.values_holds fun entry hentry => hm.entry hentry
  · exact askPlain fun _ => rfl
  · exact onMap fun count _ => Dictionary.keeps_clear (hplain count)
  · exact plain rfl

theorem callNative
    (id : NativeId)
    {arguments : List Value}
    (harguments : arguments ⊆ uses) :
    Knows uses ([·]) (Eval.callNative id arguments) := by
  refine bind (consult _) fun found => ?_
  cases found with
  | none => exact plain rfl
  | some f =>
      cases f with
      | builtin f => exact callBuiltin f arguments
      | listMethod list method => exact callListMethod list method harguments
      | mapMethod map method => exact callMapMethod map method harguments

end Natives

section Properties

theorem bindMethod (receiver : InstanceId) (method : MethodId) :
    Knows uses ([·])
      (do return Value.function (← Eval.make fun m => m.newFunction (.bound receiver method))) :=
  bind (newFunction _) fun _ => pure (by simp)

theorem instanceProperty (id : InstanceId) (name : String) :
    Knows uses ([·]) (Eval.instanceProperty id name) := by
  have hfields : Knows uses Option.toList
      (Eval.ask fun m => m.instances[id]?.bind fun i => i.fields.lookup name) := by
    refine ask fun m held _ hm v hv => ?_
    obtain ⟨i, hi, hlookup⟩ := Option.bind_eq_some_iff.mp (Option.mem_toList.mp hv)
    obtain ⟨before, after, hsplit, -⟩ := List.lookup_eq_some_iff.mp hlookup
    have hentry : (name, v) ∈ i.fields := by simp [hsplit]
    exact hm.field hi hentry
  refine bind hfields fun field => ?_
  cases field with
  | some v => exact pure fun w hw => .inl (List.mem_append_left _ hw)
  | none =>
      refine bind (consult _) fun found => ?_
      cases found with
      | some method => exact bindMethod id method
      | none => exact bind (consult _) fun _ => fail _

theorem property (object : Value) (name : String) :
    Knows uses ([·]) (Eval.property object name) := by
  cases object with
  | «instance» id => exact instanceProperty id name
  | list id =>
      simp only [Eval.property, Eval.listProperty]
      split
      · exact newNative _
      · exact fail _
  | map id =>
      simp only [Eval.property, Eval.mapProperty]
      split
      · exact newNative _
      · exact fail _
  | nil | boolean b | number x | string s | function id | native id | «class» id => exact fail _

theorem setField {v : Value} (hv : v ∈ uses) (id : InstanceId) (name : String) :
    Knows uses (fun _ => []) (Eval.setField id name v) := by
  refine update fun m held huses hm => hm.puts (m.puts_setField id name v) rfl fun o ho w hw => ?_
  obtain ⟨i, hi, rfl⟩ := Option.map_eq_some_iff.mp ho
  obtain ⟨entry, hentry, rfl⟩ := List.mem_map.mp hw
  rcases mem_putNamed hentry with rfl | hentry
  · exact hm.inFlight v (huses hv)
  · exact hm.field hi hentry

end Properties

section Bindings

theorem lookup (name : String) : Knows uses ([·]) (Eval.lookup name) := by
  refine read fun m held _ hm v hv => ?_
  simp only [Scopes.value] at hv
  split at hv
  · next owner b hlookup =>
      cases hv
      simpa using hm.lookup hlookup
  · cases hv

theorem assign {v : Value} (hv : v ∈ uses) (name : String) :
    Knows uses (fun _ => []) (Eval.assign name v) := by
  refine attempt fun m held huses hm => ⟨?_, by simp⟩
  simp only [Machine.assign, Scopes.assign]
  split
  · exact hm
  · next owner b hlookup =>
      split
      · exact hm
      · exact hm.define owner (b := { b with value := v }) (hm.inFlight v (huses hv))

theorem define
    {v : Value}
    (hv : v ∈ uses ∨ ∀ count, v.Known count)
    (name : String)
    (isConst : Bool) :
    Knows uses (fun _ => []) (Eval.define name v isConst) := by
  refine update fun m held huses hm => hm.define m.current (b := ⟨name, v, isConst⟩) ?_
  exact hv.elim (fun hv => hm.inFlight v (huses hv)) (· _)

theorem evaluateSuper (method : String) : Knows uses ([·]) (Eval.evaluateSuper method) := by
  refine bind (lookup "super") fun parent => bind (lookup "this") fun receiver => ?_
  split
  · refine bind (consult _) fun found => ?_
    cases found with
    | some id => exact bindMethod _ id
    | none => exact fail _
  · exact fail _

theorem declareFunction (d : FunctionDecl) :
    Knows uses Signal.values (Eval.declareFunction d) :=
  bind (makeClosure d.name d.params d.body) fun _ =>
    bind (define (.inl (by simp)) d.name false) fun _ => pure (by simp)

theorem enterCopy (scope : ScopeId) : Knows uses (fun _ => []) (Eval.enterCopy scope) := by
  intro m held _ hm
  have hcreate : Machine.Knows { m with scopes := (m.scopes.copy scope).1 } held :=
    hm.createScope fun b hb => hm.binding hb
  exact hcreate.of_eq (fun _ => rfl) rfl

/-- The value of a call comes from the signal of its body. -/
theorem callResult {signal : Signal} (hsignal : signal.values ⊆ uses) :
    Knows uses ([·]) (Eval.callResult signal) := by
  cases signal with
  | returned v => exact pure fun w hw => .inl (hsignal hw)
  | thrown t => exact stop (hsignal List.mem_cons_self)
  | normal | broke | continued => exact plain rfl

/-- Printing changes nothing that is stored in objects. -/
theorem print (change : Machine → String) :
    Knows uses (fun _ => []) (Eval.update fun m => { m with output := change m }) :=
  update fun _ _ _ hm => hm.of_eq (fun _ => rfl) rfl

theorem dumpBindings : Knows uses Signal.values Eval.dumpBindings :=
  bind (consult _) fun lines => bind (print _) fun _ => pure (by simp)

end Bindings

section Classes

theorem classScope {parent : Option ClassId} (hparent : ∀ id ∈ parent, .class id ∈ uses) :
    Knows uses (fun _ => []) (Eval.classScope parent) := by
  cases parent with
  | none => exact consult _
  | some parent =>
      refine bind (consult _) fun outer => ?_
      refine bind (newScope outer) fun inner => ?_
      refine bind (update fun m held huses hm => hm.define inner ?_) fun _ => pure (by simp)
      exact hm.inFlight (.class parent) (huses (by simpa using hparent parent rfl))

theorem makeMethods
    (owner : ClassId)
    (scope : ScopeId)
    (methods : List FunctionDecl)
    (table : List (String × MethodId)) :
    Knows uses (fun _ => []) (Eval.makeMethods owner scope methods table) := by
  induction methods generalizing table with
  | nil => exact pure (by simp)
  | cons d rest ih => exact bind (newMethod _) fun id => ih _

theorem defineClass
    {parent : Option ClassId}
    (hparent : ∀ id ∈ parent, .class id ∈ uses)
    (name : String)
    (methods : List FunctionDecl) :
    Knows uses Signal.values (Eval.defineClass name parent methods) := by
  refine bind (define (.inr (Value.known_of_isPlain rfl)) name false) fun _ => ?_
  refine bind (classScope hparent) fun scope => ?_
  refine bind (consult _) fun owner => ?_
  refine bind (makeMethods owner scope methods []) fun table => ?_
  have hclass : Knows uses (fun id => [.class id])
      (Eval.make fun m => m.newClass ⟨name, parent, table⟩) :=
    make fun m held huses hm =>
      hm.newClass fun id hid => hm.inFlight (.class id) (huses (hparent id hid))
  exact bind hclass fun id => bind (define (.inl (by simp)) name false) fun _ =>
    pure (by simp)

end Classes

end Knows

end Eval

end Lox
