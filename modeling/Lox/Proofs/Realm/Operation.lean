import Lox.Proofs.Collection
import Lox.Proofs.Entering
import Lox.Proofs.Elementary
import Lox.Proofs.Realm

/-!
# Operations in a realm

Every operation that runs no code of the program, carried out with live references only, has the
same result on machines that are alike in a realm, and leaves them alike.
-/

namespace Lox

namespace Realm

open Eval Eval.Related

variable (R : Realm)

/-- The machines are alike, and where code runs (`k`) the live scope `p` is current on both. -/
structure Abreast (k : Bool) (p : ScopeId) (m m' : Machine) : Prop where
  alike : R.Alike m m'
  current : k = true → m.current = p
  current' : k = true → m'.current = p
  live : k = true → R.live ⟨.scopes, p⟩

variable {R}
variable {k : Bool} {p : ScopeId} {m m' n n' : Machine}

namespace Abreast

/-- New objects on both machines. -/
theorem puts_new
    {store : Store} {o : Object}
    (h : R.Abreast k p m m')
    (hn : Machine.Puts ⟨store, m.count store⟩ (some o) m n)
    (hn' : Machine.Puts ⟨store, m'.count store⟩ (some o) m' n')
    (hrefs : ∀ t ∈ o.refs, R.live t) :
    R.Abreast k p n n' where
  alike := h.alike.puts_new hn hn' hrefs
  current hk := hn.current.trans (h.current hk)
  current' hk := hn'.current.trans (h.current' hk)
  live := h.live

/-- New contents for an object on both machines. -/
theorem puts_map
    {r : Ref} {o : Object}
    (h : R.Abreast k p m m')
    (hn : Machine.Puts r ((m.object? r).map fun _ => o) m n)
    (hn' : Machine.Puts r ((m'.object? r).map fun _ => o) m' n')
    (hr : R.live r)
    (hrefs : ∀ t ∈ o.refs, R.live t) :
    R.Abreast k p n n' where
  alike := h.alike.puts_map hn hn' hr hrefs
  current hk := hn.current.trans (h.current hk)
  current' hk := hn'.current.trans (h.current' hk)
  live := h.live

theorem setList
    {id : ListId} {elements : Sequence}
    (h : R.Abreast k p m m')
    (hid : R.live ⟨.lists, id⟩)
    (helements : ∀ v ∈ elements, R.Sees v) :
    R.Abreast k p (m.setList id elements) (m'.setList id elements) := by
  refine h.puts_map (m.puts_setList id elements) (m'.puts_setList id elements) hid fun t ht => ?_
  obtain ⟨v, hv, ht⟩ := List.mem_flatMap.mp ht
  exact helements v (by simpa using hv) t ht

theorem setMap
    {id : MapId} {entries : Dictionary}
    (h : R.Abreast k p m m')
    (hid : R.live ⟨.maps, id⟩)
    (hentries : ∀ entry ∈ entries, R.Sees entry.2) :
    R.Abreast k p (m.setMap id entries) (m'.setMap id entries) := by
  refine h.puts_map (m.puts_setMap id entries) (m'.puts_setMap id entries) hid fun t ht => ?_
  obtain ⟨entry, hentry, ht⟩ := List.mem_flatMap.mp ht
  exact hentries entry hentry t ht

theorem define
    {id : ScopeId} {b : Binding}
    (h : R.Abreast k p m m')
    (hid : R.live ⟨.scopes, id⟩)
    (hb : R.Sees b.value) :
    R.Abreast k p (m.define id b) (m'.define id b) := by
  have hn' := m'.puts_define id b
  rw [← h.alike.scope_eq hid] at hn'
  refine h.puts_map (m.puts_define id b) hn' hid fun t ht => ?_
  rcases List.mem_append.mp ht with ht | ht
  · obtain ⟨parent, hparent, rfl⟩ := List.mem_map.mp ht
    exact h.alike.live_parent hid (by simpa [Scope.define] using hparent)
  · obtain ⟨c, hc, htc⟩ := List.mem_flatMap.mp ht
    rcases Scope.mem_place hc with rfl | hc
    · exact hb t htc
    · exact h.alike.sees_binding hid hc t htc

end Abreast

/-- What is computed ends alike on machines that are alike, with results that satisfy `V`. -/
abbrev Safe
    {α : Type}
    (R : Realm)
    (k : Bool)
    (p : ScopeId)
    (V : α → Prop)
    (c : Eval α) :
    Prop :=
  Related (R.Abreast k p) (R.Abreast k p) V (Interruption.Carries R.Sees) c c

theorem carries_failed (f : Failure) : Interruption.Carries R.Sees (.failed f) :=
  trivial

/-- An operation that only reads, and may fail. -/
theorem safe_read
    {α : Type} {V : α → Prop} {question : Machine → Except Fault α}
    (h : ∀ m m', R.Abreast k p m m' →
      question m = question m' ∧ ∀ a, question m = .ok a → V a) :
    R.Safe k p V (fun m => ofExcept (question m) m) := by
  intro m m' hm
  obtain ⟨heq, hv⟩ := h m m' hm
  simp only [← heq]
  exact ofExcept hv carries_failed m m' hm

section Objects

theorem safe_newFunction {f : FunctionObject} (hf : ∀ t ∈ (Object.function f).refs, R.live t) :
    R.Safe k p (fun id => R.Sees (.function id)) (make fun m => m.newFunction f) := by
  refine make fun m m' hm => ⟨hm.alike.count_eq .functions, ?_, ?_⟩
  · exact sees_function.mpr (hm.alike.live_count .functions)
  · exact hm.puts_new (m.puts_newFunction f) (m'.puts_newFunction f) hf

theorem safe_newMethod {f : MethodObject} (hf : ∀ t ∈ (Object.method f).refs, R.live t) :
    R.Safe k p (fun id => R.live ⟨.methods, id⟩) (make fun m => m.newMethod f) :=
  make fun m m' hm => ⟨hm.alike.count_eq .methods, hm.alike.live_count .methods,
    hm.puts_new (m.puts_newMethod f) (m'.puts_newMethod f) hf⟩

theorem safe_newNative {f : NativeObject} (hf : ∀ t ∈ (Object.native f).refs, R.live t) :
    R.Safe k p R.Sees (make fun m => m.newNative f) :=
  make fun m m' hm => ⟨congrArg Value.native (hm.alike.count_eq .natives),
    sees_native.mpr (hm.alike.live_count .natives),
    hm.puts_new (m.puts_newNative f) (m'.puts_newNative f) hf⟩

theorem safe_newClass {c : ClassObject} (hc : ∀ t ∈ (Object.class c).refs, R.live t) :
    R.Safe k p (fun id => R.Sees (.class id)) (make fun m => m.newClass c) :=
  make fun m m' hm => ⟨hm.alike.count_eq .classes,
    sees_class.mpr (hm.alike.live_count .classes),
    hm.puts_new (m.puts_newClass c) (m'.puts_newClass c) hc⟩

/-- A list is made of elements that are found alike. -/
theorem safe_newList
    {elements : Machine → Sequence}
    (h : ∀ m m', R.Abreast k p m m' →
      elements m = elements m' ∧ ∀ v ∈ elements m, R.Sees v) :
    R.Safe k p R.Sees (make fun m => m.newList (elements m)) := by
  refine make fun m m' hm => ?_
  obtain ⟨heq, hsees⟩ := h m m' hm
  rw [← heq]
  refine ⟨congrArg Value.list (hm.alike.count_eq .lists),
    sees_list.mpr (hm.alike.live_count .lists),
    hm.puts_new (m.puts_newList _) (m'.puts_newList _) fun t ht => ?_⟩
  obtain ⟨v, hv, ht⟩ := List.mem_flatMap.mp ht
  exact hsees v (by simpa using hv) t ht

theorem safe_newMap : R.Safe k p R.Sees (make fun m => m.newMap []) :=
  make fun m m' hm => ⟨congrArg Value.map (hm.alike.count_eq .maps),
    sees_map.mpr (hm.alike.live_count .maps),
    hm.puts_new (m.puts_newMap []) (m'.puts_newMap []) (by simp [Object.refs])⟩

/-- The current scope is live where code runs. -/
theorem safe_current :
    R.Safe true p (fun scope => R.live ⟨.scopes, scope⟩) (Eval.ask (·.current)) :=
  ask fun _ _ hm =>
    ⟨(hm.current rfl).trans (hm.current' rfl).symm, hm.current rfl ▸ hm.live rfl⟩

/-- A function is made that closes over the current scope. -/
theorem safe_makeClosure (name : String) (params : List String) (body : List Stmt) :
    R.Safe true p R.Sees (makeClosure name params body) := by
  refine bind safe_current fun scope hscope => ?_
  exact bind (safe_newFunction (by simpa [Object.refs] using hscope)) fun id hid => pure hid

theorem safe_bindMethod
    {receiver : InstanceId} {method : MethodId}
    (hreceiver : R.live ⟨.instances, receiver⟩)
    (hmethod : R.live ⟨.methods, method⟩) :
    R.Safe k p R.Sees
      (do return Value.function (← Eval.make fun m => m.newFunction (.bound receiver method))) := by
  refine bind (safe_newFunction fun t ht => ?_) fun id hid => pure hid
  have ht : t = ⟨.instances, receiver⟩ ∨ t = ⟨.methods, method⟩ := by
    simpa [Object.refs] using ht
  rcases ht with rfl | rfl
  · exact hreceiver
  · exact hmethod

end Objects

section Collections

theorem safe_onList
    {id : ListId} {operation : Sequence → Attempt Sequence Value}
    (hid : R.live ⟨.lists, id⟩)
    (hop : Sequence.Keeps R.Sees operation) :
    R.Safe k p R.Sees (attempt fun m => m.onList id operation) := by
  refine attempt carries_failed fun m m' hm => ?_
  obtain ⟨hresult, hleft⟩ := hop (m.list id) fun v hv => hm.alike.sees_element hid hv
  simp only [Machine.onList, Machine.takeList, ← hm.alike.list_eq hid]
  exact ⟨trivial, hresult, (hm.setList hid (by simp)).setList hid hleft⟩

theorem safe_onMap
    {id : MapId} {operation : Dictionary → Attempt Dictionary Value}
    (hid : R.live ⟨.maps, id⟩)
    (hop : Dictionary.Keeps R.Sees operation) :
    R.Safe k p R.Sees (attempt fun m => m.onMap id operation) := by
  refine attempt carries_failed fun m m' hm => ?_
  obtain ⟨hresult, hleft⟩ := hop (m.map id) fun entry hentry => hm.alike.sees_entry hid hentry
  simp only [Machine.onMap, ← hm.alike.map_eq hid]
  exact ⟨trivial, hresult, hm.setMap hid hleft⟩

theorem safe_item {object : Value} (hobject : R.Sees object) (index : Value) :
    R.Safe k p R.Sees (item object index) := by
  cases object with
  | list id =>
      have hid := sees_list.mp hobject
      refine safe_read fun m m' hm => ⟨by rw [hm.alike.list_eq hid], ?_⟩
      exact Sequence.item_holds (fun v hv => hm.alike.sees_element hid hv) (sees_of_isPlain rfl)
        index
  | map id =>
      have hid := sees_map.mp hobject
      refine safe_read fun m m' hm => ⟨by rw [hm.alike.map_eq hid], ?_⟩
      exact Dictionary.item_holds (fun entry hentry => hm.alike.sees_entry hid hentry) index
  | nil | boolean b | number x | string s | function id | native id | «class» id | «instance» id =>
      exact stop trivial

theorem safe_setItem
    {object v : Value}
    (hobject : R.Sees object)
    (index : Value)
    (hv : R.Sees v) :
    R.Safe k p R.Sees (setItem object index v) := by
  cases object with
  | list id =>
      exact safe_onList (sees_list.mp hobject) (Sequence.keeps_setItem hv index)
  | map id =>
      exact safe_onMap (sees_map.mp hobject) (Dictionary.keeps_setItem hv index)
  | nil | boolean b | number x | string s | function id | native id | «class» id | «instance» id =>
      exact stop trivial

end Collections

section Natives

theorem safe_plain {v : Value} (hv : v.isPlain = true) : R.Safe k p R.Sees (pure v) :=
  Related.pure (sees_of_isPlain hv)

/-- A question about live objects with a plain answer. -/
theorem safe_ask
    {question : Machine → Value}
    (h : ∀ m m', R.Abreast k p m m' → question m = question m')
    (hplain : ∀ m, (question m).isPlain = true) :
    R.Safe k p R.Sees (Eval.ask question) :=
  Related.ask fun m m' hm => ⟨h m m' hm, sees_of_isPlain (hplain m)⟩

theorem safe_readClock : R.Safe k p R.Sees readClock := by
  intro m m' hm
  have hnow := hm.alike.clock 0
  have hlater (j : Nat) := hm.alike.clock (1 + j)
  simp only [Nat.add_zero, ← Nat.add_assoc] at hnow hlater
  simp only [readClock, ← hnow]
  refine .done (sees_of_isPlain rfl) ⟨?_, hm.current, hm.current', hm.live⟩
  exact hm.alike.of_eq (fun _ => rfl) (fun _ => rfl) hm.alike.frames hm.alike.output hlater

theorem safe_lengthOf {v : Value} (hv : R.Sees v) : R.Safe k p R.Sees (lengthOf v) := by
  cases v with
  | string s => exact safe_plain rfl
  | list id =>
      exact safe_ask (fun m m' hm => by rw [hm.alike.list_eq (sees_list.mp hv)]) fun _ => rfl
  | map id =>
      exact safe_ask (fun m m' hm => by rw [hm.alike.map_eq (sees_map.mp hv)]) fun _ => rfl
  | nil | boolean b | number x | function id | native id | «class» id | «instance» id =>
      exact stop trivial

theorem safe_callBuiltin
    (f : Builtin)
    {arguments : List Value}
    (harguments : ∀ v ∈ arguments, R.Sees v) :
    R.Safe k p R.Sees (callBuiltin f arguments) := by
  unfold callBuiltin
  split
  · exact safe_readClock
  · exact safe_plain rfl
  · exact safe_ask (fun m m' hm => by rw [hm.alike.text_eq (harguments _ (by simp))]) fun _ => rfl
  · exact safe_lengthOf (harguments _ (by simp))
  · exact safe_plain rfl

theorem safe_callListMethod
    {list : ListId}
    (method : ListMethod)
    {arguments : List Value}
    (hlist : R.live ⟨.lists, list⟩)
    (harguments : ∀ v ∈ arguments, R.Sees v) :
    R.Safe k p R.Sees (callListMethod list method arguments) := by
  have hplain {v : Value} : v.isPlain = true → R.Sees v := sees_of_isPlain
  unfold callListMethod
  split
  · exact safe_onList hlist (Sequence.keeps_add hplain (harguments _ (by simp)))
  · exact safe_onList hlist Sequence.keeps_pop
  · exact safe_onList hlist (Sequence.keeps_insert hplain (harguments _ (by simp)) _)
  · exact safe_onList hlist (Sequence.keeps_removeAt hplain _)
  · exact safe_ask (fun m m' hm => by rw [hm.alike.list_eq hlist]) fun _ => rfl
  · exact safe_ask (fun m m' hm => by rw [hm.alike.list_eq hlist]) fun _ => rfl
  · refine safe_ask (fun m m' hm => by rw [hm.alike.list_eq hlist]) fun m => ?_
    split <;> rfl
  · exact safe_onList hlist (Sequence.keeps_clear hplain)
  · exact safe_plain rfl

theorem safe_callMapMethod
    {map : MapId}
    (method : MapMethod)
    {arguments : List Value}
    (hmap : R.live ⟨.maps, map⟩)
    (harguments : ∀ v ∈ arguments, R.Sees v) :
    R.Safe k p R.Sees (callMapMethod map method arguments) := by
  have hplain {v : Value} : v.isPlain = true → R.Sees v := sees_of_isPlain
  fun_cases callMapMethod map method arguments
  · exact safe_read fun m m' hm =>
      ⟨by rw [hm.alike.map_eq hmap], Dictionary.has_holds hplain _ _⟩
  · refine safe_read fun m m' hm => ⟨by rw [hm.alike.map_eq hmap], ?_⟩
    exact Dictionary.itemOr_holds (fun entry hentry => hm.alike.sees_entry hmap hentry)
      (harguments _ (by simp)) _
  · exact safe_onMap hmap (Dictionary.keeps_remove hplain _)
  · exact safe_newList fun m m' hm =>
      ⟨by rw [hm.alike.map_eq hmap], Dictionary.keys_holds hplain _⟩
  · refine safe_newList fun m m' hm => ⟨by rw [hm.alike.map_eq hmap], ?_⟩
    exact Dictionary.values_holds fun entry hentry => hm.alike.sees_entry hmap hentry
  · exact safe_ask (fun m m' hm => by rw [hm.alike.map_eq hmap]) fun _ => rfl
  · exact safe_onMap hmap (Dictionary.keeps_clear hplain)
  · exact safe_plain rfl

theorem safe_callNative
    {id : NativeId} {arguments : List Value}
    (hid : R.live ⟨.natives, id⟩)
    (harguments : ∀ v ∈ arguments, R.Sees v) :
    R.Safe k p R.Sees (callNative id arguments) := by
  have hnative : R.Safe k p (fun found => ∀ f ∈ found, ∀ t ∈ (Object.native f).refs, R.live t)
      (Eval.ask fun m => m.natives[id]?) :=
    Related.ask fun m m' hm =>
      ⟨hm.alike.native_eq hid, fun f hf t ht => hm.alike.live_native hid hf ht⟩
  refine Related.bind hnative fun found hfound => ?_
  cases found with
  | none => exact safe_plain rfl
  | some f =>
      have hrefs := hfound f rfl
      cases f with
      | builtin f => exact safe_callBuiltin f harguments
      | listMethod list method =>
          exact safe_callListMethod method (hrefs _ List.mem_cons_self) harguments
      | mapMethod map method =>
          exact safe_callMapMethod method (hrefs _ List.mem_cons_self) harguments

end Natives

section Properties

theorem safe_instanceProperty {id : InstanceId} (hid : R.live ⟨.instances, id⟩) (name : String) :
    R.Safe k p R.Sees (instanceProperty id name) := by
  have hfields : R.Safe k p (fun found => ∀ v ∈ found, R.Sees v)
      (Eval.ask fun m => m.instances[id]?.bind fun i => i.fields.lookup name) := by
    refine Related.ask fun m m' hm => ⟨by rw [hm.alike.instance_eq hid], fun v hv => ?_⟩
    obtain ⟨i, hi, hfield⟩ := Option.bind_eq_some_iff.mp hv
    exact hm.alike.sees_field hid hi hfield
  have hmethods : R.Safe k p (fun found => ∀ method ∈ found, R.live ⟨.methods, method⟩)
      (Eval.ask fun m => m.instanceMethod? id name) :=
    Related.ask fun m m' hm => hm.alike.instanceMethod?_eq name hid
  have howner : R.Safe k p (fun _ => True) (Eval.ask fun m => m.instanceClassName id) :=
    Related.ask fun m m' hm => ⟨hm.alike.instanceClassName_eq hid, trivial⟩
  refine Related.bind hfields fun field hfield => ?_
  cases field with
  | some v => exact Related.pure (hfield v rfl)
  | none =>
      refine Related.bind hmethods fun found hfound => ?_
      cases found with
      | some method => exact safe_bindMethod hid (hfound method rfl)
      | none => exact Related.bind howner fun _ _ => stop trivial

theorem safe_property {object : Value} (hobject : R.Sees object) (name : String) :
    R.Safe k p R.Sees (property object name) := by
  cases object with
  | «instance» id => exact safe_instanceProperty (sees_instance.mp hobject) name
  | list id =>
      simp only [property, listProperty]
      split
      · exact safe_newNative (by simpa [Object.refs] using hobject)
      · exact stop trivial
  | map id =>
      simp only [property, mapProperty]
      split
      · exact safe_newNative (by simpa [Object.refs] using hobject)
      · exact stop trivial
  | nil | boolean b | number x | string s | function id | native id | «class» id =>
      exact stop trivial

theorem safe_setField
    {id : InstanceId} {v : Value}
    (hid : R.live ⟨.instances, id⟩)
    (name : String)
    (hv : R.Sees v) :
    R.Safe k p (fun _ => True) (setField id name v) := by
  refine Related.update trivial fun m m' hm => ?_
  have hn := m.puts_setField id name v
  have hn' := m'.puts_setField id name v
  rw [← hm.alike.instance_eq hid] at hn'
  refine ⟨hm.alike.puts hn hn' hid ?_ ?_, fun hk => hn.current.trans (hm.current hk),
    fun hk => hn'.current.trans (hm.current' hk), hm.live⟩
  · simp [Machine.object?]
  · intro o ho t ht
    obtain ⟨i, hi, rfl⟩ := Option.map_eq_some_iff.mp ho
    rcases List.mem_cons.mp ht with rfl | ht
    · exact hm.alike.live_instance hid hi List.mem_cons_self
    · obtain ⟨field, hfield, htf⟩ := List.mem_flatMap.mp ht
      rcases mem_putNamed hfield with rfl | hfield
      · exact hv t htf
      · refine hm.alike.live_instance hid hi (List.mem_cons_of_mem _ ?_)
        exact List.mem_flatMap.mpr ⟨field, hfield, htf⟩

end Properties

section Bindings

/-- Where code runs, a lookup follows live scopes. -/
theorem Abreast.lookup?_eq (h : R.Abreast true p m m') (name : String) :
    m.scopes.lookup? m.current name = m'.scopes.lookup? m'.current name ∧
      ∀ owner b, m.scopes.lookup? m.current name = some (owner, b) →
        R.live ⟨.scopes, owner⟩ ∧ R.Sees b.value := by
  rw [h.current rfl, h.current' rfl]
  exact h.alike.lookup?_eq name (h.live rfl)

theorem safe_lookup (name : String) : R.Safe true p R.Sees (lookup name) := by
  refine safe_read fun m m' hm => ?_
  obtain ⟨heq, hfound⟩ := hm.lookup?_eq name
  simp only [Scopes.value, ← heq]
  refine ⟨trivial, fun v hv => ?_⟩
  split at hv
  · next owner b hlookup =>
      cases hv
      exact (hfound owner b hlookup).2
  · cases hv

theorem safe_assign {v : Value} (name : String) (hv : R.Sees v) :
    R.Safe true p (fun _ => True) (assign name v) := by
  refine attempt carries_failed fun m m' hm => ?_
  obtain ⟨heq, hfound⟩ := hm.lookup?_eq name
  simp only [Machine.assign, Scopes.assign, ← heq]
  cases hlookup : m.scopes.lookup? m.current name with
  | none => exact ⟨rfl, fun _ _ => trivial, hm⟩
  | some found =>
      obtain ⟨owner, b⟩ := found
      simp only []
      split
      · exact ⟨rfl, fun _ _ => trivial, hm⟩
      · exact ⟨rfl, fun _ _ => trivial, hm.define (hfound owner b hlookup).1 hv⟩

theorem safe_define {v : Value} (name : String) (hv : R.Sees v) (isConst : Bool) :
    R.Safe true p (fun _ => True) (define name v isConst) := by
  refine Related.update trivial fun m m' hm => ?_
  rw [hm.current rfl, hm.current' rfl]
  exact hm.define (hm.live rfl) hv

theorem safe_evaluateSuper (method : String) : R.Safe true p R.Sees (evaluateSuper method) := by
  refine Related.bind (safe_lookup "super") fun parent hparent =>
    Related.bind (safe_lookup "this") fun receiver hreceiver => ?_
  split
  · next parent receiver =>
      have hmethods : R.Safe true p (fun found => ∀ method ∈ found, R.live ⟨.methods, method⟩)
          (Eval.ask fun m => m.findMethod? parent method) :=
        Related.ask fun m m' hm => hm.alike.findMethod?_eq method (sees_class.mp hparent)
      refine Related.bind hmethods fun found hfound => ?_
      cases found with
      | some id => exact safe_bindMethod (sees_instance.mp hreceiver) (hfound id rfl)
      | none => exact stop trivial
  · exact stop trivial

/-- Live scopes are listed alike. -/
theorem Alike.dumpLines_eq
    (h : R.Alike m m')
    {scopes : List ScopeId}
    (hscopes : ∀ scope ∈ scopes, R.live ⟨.scopes, scope⟩) :
    dumpLines m scopes = dumpLines m' scopes := by
  unfold dumpLines
  induction scopes with
  | nil => rw [List.flatMap_nil, List.flatMap_nil]
  | cons scope rest ih =>
      have hscope := hscopes scope List.mem_cons_self
      have hrest := ih fun s hs => hscopes s (List.mem_cons_of_mem _ hs)
      rw [List.flatMap_cons, List.flatMap_cons, hrest, ← h.scope_eq hscope]
      refine congrArg (fun lines => lines ++ _ ++ _) (List.map_congr_left fun b hb => ?_)
      rw [h.text_eq (h.sees_binding hscope hb)]

theorem Abreast.output
    (h : R.Abreast k p m m')
    (text : String) :
    R.Abreast k p { m with output := m.output ++ text }
      { m' with output := m'.output ++ text } where
  alike := h.alike.of_eq (fun _ => rfl) (fun _ => rfl) h.alike.frames
    (congrArg (· ++ text) h.alike.output) h.alike.clock
  current := h.current
  current' := h.current'
  live := h.live

theorem safe_dumpBindings : R.Safe true p (fun signal => signal = .normal) dumpBindings := by
  have hlines : R.Safe true p (fun _ => True)
      (Eval.ask fun m => dumpLines m (m.scopes.chain m.current (some Machine.builtinScope))) := by
    refine Related.ask fun m m' hm => ⟨?_, trivial⟩
    obtain ⟨heq, hlive⟩ := hm.alike.chain_eq (some Machine.builtinScope) (hm.live rfl)
    rw [hm.current rfl, hm.current' rfl, ← heq]
    exact hm.alike.dumpLines_eq hlive
  have hprint (text : String) : R.Safe true p (fun _ => True)
      (Eval.update fun m => { m with output := m.output ++ text }) :=
    Related.update trivial fun m m' hm => hm.output text
  refine Related.bind hlines fun lines _ => ?_
  exact Related.bind (hprint _) fun _ _ => Related.pure rfl

end Bindings

section Classes

/-- The scope for the methods of a class is live. -/
theorem safe_classScope {parent : Option ClassId} (hparent : ∀ id ∈ parent, R.live ⟨.classes, id⟩) :
    R.Safe true p (fun scope => R.live ⟨.scopes, scope⟩) (classScope parent) := by
  cases parent with
  | none => exact safe_current
  | some parent =>
      have hnew (outer : ScopeId) (houter : R.live ⟨.scopes, outer⟩) :
          R.Safe true p (fun scope => R.live ⟨.scopes, scope⟩)
            (Eval.make fun m => m.newScope outer) :=
        Related.make fun m m' hm => ⟨hm.alike.count_eq .scopes, hm.alike.live_count .scopes,
          hm.puts_new (m.puts_create _) (m'.puts_create _) (by simpa [Object.refs] using houter)⟩
      have hbind (inner : ScopeId) (hinner : R.live ⟨.scopes, inner⟩) :
          R.Safe true p (fun _ => True)
            (Eval.update fun m => m.define inner ⟨"super", .class parent, false⟩) :=
        Related.update trivial fun m m' hm =>
          hm.define hinner (sees_class.mpr (hparent parent rfl))
      refine Related.bind safe_current fun outer houter => ?_
      refine Related.bind (hnew outer houter) fun inner hinner => ?_
      exact Related.bind (hbind inner hinner) fun _ _ => Related.pure hinner

theorem safe_makeMethods
    {owner : ClassId} {scope : ScopeId}
    (howner : R.live ⟨.classes, owner⟩)
    (hscope : R.live ⟨.scopes, scope⟩)
    (methods : List FunctionDecl)
    (table : List (String × MethodId))
    (htable : ∀ entry ∈ table, R.live ⟨.methods, entry.2⟩) :
    R.Safe k p (fun table => ∀ entry ∈ table, R.live ⟨.methods, entry.2⟩)
      (makeMethods owner scope methods table) := by
  induction methods generalizing table with
  | nil => exact Related.pure htable
  | cons d rest ih =>
      refine Related.bind (safe_newMethod fun t ht => ?_) fun id hid =>
        ih _ fun entry hentry => ?_
      · have ht : t = ⟨.scopes, scope⟩ ∨ t = ⟨.classes, owner⟩ := by simpa [Object.refs] using ht
        rcases ht with rfl | rfl
        · exact hscope
        · exact howner
      · rcases mem_putNamed hentry with rfl | hentry
        · exact hid
        · exact htable entry hentry

theorem safe_defineClass
    {parent : Option ClassId}
    (name : String)
    (hparent : ∀ id ∈ parent, R.live ⟨.classes, id⟩)
    (methods : List FunctionDecl) :
    R.Safe true p (fun signal => signal = .normal) (defineClass name parent methods) := by
  have howner : R.Safe true p (fun id => R.live ⟨.classes, id⟩)
      (Eval.ask fun m => m.classes.size) :=
    Related.ask fun m m' hm => ⟨hm.alike.count_eq .classes, hm.alike.live_count .classes⟩
  have hrefs (table : List (String × MethodId))
      (htable : ∀ entry ∈ table, R.live ⟨.methods, entry.2⟩) :
      ∀ t ∈ (Object.class ⟨name, parent, table⟩).refs, R.live t := by
    intro t ht
    rcases List.mem_append.mp ht with ht | ht
    · obtain ⟨id, hid, rfl⟩ := List.mem_map.mp ht
      exact hparent id (by simpa using hid)
    · obtain ⟨entry, hentry, rfl⟩ := List.mem_map.mp ht
      exact htable entry hentry
  refine Related.bind (safe_define name (sees_of_isPlain rfl) false) fun _ _ => ?_
  refine Related.bind (safe_classScope hparent) fun scope hscope => ?_
  refine Related.bind howner fun owner howner => ?_
  refine Related.bind (safe_makeMethods howner hscope methods [] (by simp)) fun table htable => ?_
  refine Related.bind (safe_newClass (hrefs table htable)) fun id hid => ?_
  exact Related.bind (safe_define name hid false) fun _ _ => Related.pure rfl

theorem safe_declareFunction (d : FunctionDecl) :
    R.Safe true p (fun signal => signal = .normal) (declareFunction d) :=
  Related.bind (safe_makeClosure d.name d.params d.body) fun _ hf =>
    Related.bind (safe_define d.name hf false) fun _ _ => Related.pure rfl

end Classes

end Realm

end Lox
