import Lox.Proofs.Classes.Home
import Lox.Proofs.Journal.Sparing
import Lox.Proofs.Retention

/-!
# Sagas

A chronicle says what becomes of scopes. A `Saga` says what becomes of instances: it tells every
field that is set from everything else, which retains instances. It also tells the code of a call
from the entering of the call, so that the code that runs in one call can be followed without the
code of the calls that it makes (`Saga.inCall`).
-/

namespace Lox

section Fields

variable (m : Machine) (id : InstanceId) (name : String) (v : Value)

/-- The machine with a field of an instance set. -/
def Machine.withField : Machine :=
  { m with
    instances := m.instances.modify id fun i =>
      { i with fields := Eval.putNamed name v i.fields } }

theorem Machine.getElem?_withField (j : InstanceId) :
    (m.withField id name v).instances[j]? =
      m.instances[j]?.map fun i =>
        if j = id then { i with fields := Eval.putNamed name v i.fields } else i := by
  rw [Machine.withField, Array.getElem?_modify]
  by_cases hj : id = j
  · simp [hj]
  · simp [hj, Ne.symm hj]

/-- The instance has a field of this name, with this value. -/
def Machine.HasField : Prop :=
  ∃ i, m.instances[id]? = some i ∧ (name, v) ∈ i.fields

variable (limits : Limits)

/-- The beginning of an assignment to a property: the object turns out to be the instance, and then
the value is this one. -/
def Event.Stores (e : Event) : Prop :=
  ∃ object value span before between after room,
    e = .began (.evaluate (.set object name value span)) before ∧
    (Evaluator.ofRoom limits room).evaluate object before = .done (.instance id) between ∧
    (Evaluator.ofRoom limits room).evaluate value between = .done v after

end Fields

section Steps

/-- An operation that runs no code and sets no field. -/
structure Machine.Proceeds (m n : Machine) : Prop where
  retains : m.Retains n
  evolves : m.Evolves n
  housed : m.Housed → n.Housed
  current : n.current = m.current
  frames : n.frames = m.frames

/-- The class of an instance. -/
def Machine.classOf? (m : Machine) (id : InstanceId) : Option ClassId :=
  m.instances[id]?.map (·.classId)

/-- What the later machine has of the earlier one, whatever code runs in between. -/
structure Machine.Continues (m n : Machine) : Prop where
  evolves : m.Evolves n
  housed : m.Housed → n.Housed
  functions : ∀ {id : FunctionId} {f : FunctionObject},
    m.functions[id]? = some f → n.functions[id]? = some f
  classOf : ∀ {id : InstanceId} {c : ClassId}, m.classOf? id = some c → n.classOf? id = some c
  marked : ∀ f ∈ n.methods, f ∈ m.methods ∨ f.IsMarked

variable {m n o : Machine}

namespace Machine.Proceeds

theorem of_quiet (h : m.Quiet n) (h' : m.Retains n) : m.Proceeds n where
  retains := h'
  evolves := .of_eq h.scopes h.classes h.methods
  housed hm := hm.of_quiet h
  current := h.current
  frames := h.frames

theorem trans (h : m.Proceeds n) (h' : n.Proceeds o) : m.Proceeds o where
  retains := h.retains.trans h'.retains
  evolves := h.evolves.trans h'.evolves
  housed hm := h'.housed (h.housed hm)
  current := h'.current.trans h.current
  frames := h'.frames.trans h.frames

instance : IsPreorder Machine Machine.Proceeds where
  refl m := of_quiet (.refl m) (.refl m)
  trans _ _ _ := trans

instance : Eval.Operating Machine.Proceeds where
  contents _ _ _ _ _ _ := of_quiet (.of_eq rfl rfl rfl rfl rfl rfl) (.of_eq rfl rfl rfl)
  bindMethod m receiver method :=
    of_quiet (.newFunction_bound m receiver method) (.newFunction m _)
  lastValue _ _ := of_quiet (.of_eq rfl rfl rfl rfl rfl rfl) (.of_eq rfl rfl rfl)

end Machine.Proceeds

namespace Machine.Continues

theorem refl (m : Machine) : m.Continues m :=
  ⟨.refl m, fun h => h, fun h => h, fun h => h, fun _ h => .inl h⟩

theorem trans (h : m.Continues n) (h' : n.Continues o) : m.Continues o where
  evolves := h.evolves.trans h'.evolves
  housed hm := h'.housed (h.housed hm)
  functions hf := h'.functions (h.functions hf)
  classOf hc := h'.classOf (h.classOf hc)
  marked f hf := (h'.marked f hf).elim (h.marked f) .inr

theorem of_proceeds (h : m.Proceeds n) : m.Continues n where
  evolves := h.evolves
  housed := h.housed
  functions := h.retains.functions
  classOf hc := by
    obtain ⟨i, hi, rfl⟩ := Option.map_eq_some_iff.mp hc
    exact Option.map_eq_some_iff.mpr ⟨i, h.retains.instances hi, rfl⟩
  marked := h.retains.marked

/-- Scopes are added, and other things change that are no objects. -/
theorem of_scopes
    (hscopes : m.scopes.Extend n.scopes)
    (heq : n = { m with scopes := n.scopes, current := n.current, frames := n.frames }) :
    m.Continues n := by
  rw [heq]
  have hevolves : m.Evolves
      { m with scopes := n.scopes, current := n.current, frames := n.frames } :=
    ⟨hscopes, .of_eq rfl rfl⟩
  exact ⟨hevolves, fun hm => hm.of_scopes hevolves rfl rfl rfl, fun h => h, fun h => h,
    fun _ h => .inl h⟩

theorem enter (m : Machine) (parent : ScopeId) (bindings : List Binding) :
    m.Continues (m.enter parent bindings) := by
  rw [enter_eq]
  exact of_scopes (.create _ _) rfl

theorem enterCopy (m : Machine) (scope : ScopeId) : m.Continues (m.enterCopy scope) :=
  of_scopes (.create _ _) rfl

theorem leave (m : Machine) (scope : ScopeId) : m.Continues (m.leave scope) :=
  of_scopes (.refl _) rfl

theorem pushFrame (m : Machine) (frame : Frame) : m.Continues (m.pushFrame frame) :=
  of_scopes (.refl _) rfl

theorem popFrame (m : Machine) : m.Continues m.popFrame :=
  of_scopes (.refl _) rfl

theorem withField (m : Machine) (id : InstanceId) (name : String) (v : Value) :
    m.Continues (m.withField id name v) where
  evolves := .of_eq rfl rfl rfl
  housed hm := hm.of_scopes (.of_eq rfl rfl rfl) rfl rfl rfl
  functions h := h
  classOf {j c} hc := by
    obtain ⟨i, hi, rfl⟩ := Option.map_eq_some_iff.mp hc
    rw [Machine.classOf?, Machine.getElem?_withField, hi, Option.map_some, Option.map_some]
    split <;> rfl
  marked _ h := .inl h

end Machine.Continues

section HasField

variable {id : InstanceId} {name : String} {v : Value}

theorem Machine.HasField.of_retains (h : m.Retains n) (hn : n.HasField id name v) :
    m.HasField id name v := by
  obtain ⟨i, hi, hmem⟩ := hn
  rcases h.fresh hi with hold | hnone
  · exact ⟨i, hold, hmem⟩
  · rw [hnone] at hmem
    cases hmem

theorem Machine.HasField.of_eq (h : n.instances = m.instances) (hn : n.HasField id name v) :
    m.HasField id name v := by
  unfold Machine.HasField
  rw [← h]
  exact hn

theorem Machine.HasField.of_withField
    {id' : InstanceId}
    {name' : String}
    {v' : Value}
    (h : (m.withField id' name' v').HasField id name v) :
    m.HasField id name v ∨ id = id' ∧ name = name' ∧ v = v' := by
  obtain ⟨i, hi, hmem⟩ := h
  rw [Machine.getElem?_withField, Option.map_eq_some_iff] at hi
  obtain ⟨old, hold, rfl⟩ := hi
  split at hmem
  · next hid =>
      rcases Eval.mem_putNamed hmem with heq | hmem
      · exact .inr ⟨hid, congrArg Prod.fst heq, congrArg Prod.snd heq⟩
      · exact .inl ⟨old, hold, hmem⟩
  · exact .inl ⟨old, hold, hmem⟩

end HasField

end Steps

/-- From one machine to another by way of the events of a journal: in the code of a call, or before
and after it (`entering`). -/
inductive Saga (limits : Limits) : (entering : Bool) → Machine → List Event → Machine → Prop
  | step
      {entering : Bool}
      {m n : Machine}
      (h : m.Proceeds n) :
      Saga limits entering m [] n
  | note
      {entering : Bool}
      (e : Event) :
      Saga limits entering e.machine [e] e.machine
  | append
      {entering : Bool}
      {m n o : Machine}
      {journal later : List Event}
      (h : Saga limits entering m journal n)
      (h' : Saga limits entering n later o) :
      Saga limits entering m (journal ++ later) o
  /-- An assignment to a property. -/
  | store
      {m n : Machine}
      {object value : Expr}
      {span : Span}
      {id : InstanceId}
      {name : String}
      {v : Value}
      {journal : List Event}
      (hstores : Event.Stores id name v limits (.began (.evaluate (.set object name value span)) m))
      (h : Saga limits false m journal n) :
      Saga limits false m (.began (.evaluate (.set object name value span)) m :: journal)
        (n.withField id name v)
  /-- A copy of the current scope becomes the current one. -/
  | copy
      {m : Machine} :
      Saga limits false m [] (m.enterCopy m.current)
  /-- A new scope inside the current one. -/
  | block
      {m n : Machine}
      {bindings : List Binding}
      {journal : List Event}
      (hbindings : ∀ b ∈ bindings, ¬IsReserved b.name)
      (h : Saga limits false (m.enter m.current bindings) journal n) :
      Saga limits false m journal (n.leave m.current)
  /-- A call. -/
  | call
      {m n : Machine}
      {frame : Frame}
      {journal : List Event}
      (h : Saga limits true (m.pushFrame frame) journal n) :
      Saga limits false m journal n.popFrame
  /-- The body of what is called. -/
  | body
      {m n : Machine}
      {parent : ScopeId}
      {bindings : List Binding}
      {journal : List Event}
      (h : Saga limits false (m.enter parent bindings) journal n) :
      Saga limits true m journal (n.leave m.current)

namespace Saga

variable {limits : Limits} {entering : Bool} {m n : Machine} {journal : List Event}

theorem nil (m : Machine) : Saga limits entering m [] m :=
  .step (refl_of Machine.Proceeds m)

/-- Nothing is removed. -/
theorem continues (h : Saga limits entering m journal n) :
    m.Continues n ∧ ∀ e ∈ journal, m.Continues e.machine := by
  induction h with
  | step h => exact ⟨.of_proceeds h, by simp⟩
  | note e => exact ⟨.refl _, by simp [Machine.Continues.refl]⟩
  | append h h' ih ih' =>
      refine ⟨ih.1.trans ih'.1, fun e he => ?_⟩
      rcases List.mem_append.mp he with he | he
      · exact ih.2 e he
      · exact ih.1.trans (ih'.2 e he)
  | store hstores h ih =>
      refine ⟨ih.1.trans (.withField _ _ _ _), fun e he => ?_⟩
      rcases List.mem_cons.mp he with rfl | he
      · exact .refl _
      · exact ih.2 e he
  | @copy m => exact ⟨.enterCopy m m.current, by simp⟩
  | @block m n bindings _ _ h ih =>
      have henter := Machine.Continues.enter m m.current bindings
      exact ⟨(henter.trans ih.1).trans (.leave n m.current), fun e he => henter.trans (ih.2 e he)⟩
  | @call m n frame _ h ih =>
      have hpush := Machine.Continues.pushFrame m frame
      exact ⟨(hpush.trans ih.1).trans (.popFrame n), fun e he => hpush.trans (ih.2 e he)⟩
  | @body m n parent bindings _ h ih =>
      have henter := Machine.Continues.enter m parent bindings
      exact ⟨(henter.trans ih.1).trans (.leave n m.current), fun e he => henter.trans (ih.2 e he)⟩

/-- The calls that are active at the beginning are active all the time, and no others at the end. -/
theorem frames (h : Saga limits entering m journal n) :
    n.frames = m.frames ∧ ∀ e ∈ journal, m.frames.length ≤ e.machine.frames.length := by
  induction h with
  | step h => exact ⟨h.frames, by simp⟩
  | note e => exact ⟨rfl, by simp⟩
  | append h h' ih ih' =>
      refine ⟨ih'.1.trans ih.1, fun e he => ?_⟩
      rcases List.mem_append.mp he with he | he
      · exact ih.2 e he
      · exact ih.1 ▸ ih'.2 e he
  | store hstores h ih =>
      refine ⟨ih.1, fun e he => ?_⟩
      rcases List.mem_cons.mp he with rfl | he
      · exact Nat.le_refl _
      · exact ih.2 e he
  | copy => exact ⟨rfl, by simp⟩
  | block _ h ih =>
      rw [Machine.frames_enter] at ih
      exact ih
  | call h ih =>
      refine ⟨congrArg List.tail ih.1, fun e he => ?_⟩
      exact Nat.le_trans (Nat.le_succ _) (ih.2 e he)
  | body h ih =>
      rw [Machine.frames_enter] at ih
      exact ih

theorem isRanged (h : Saga limits entering m journal n) (hm : m.IsRanged) : n.IsRanged := by
  induction h with
  | step h =>
      unfold Machine.IsRanged
      rw [h.current]
      exact Nat.lt_of_lt_of_le hm h.evolves.scopes.size_le
  | note e => exact hm
  | append h h' ih ih' => exact ih' (ih hm)
  | store hstores h ih => exact ih hm
  | copy => exact Machine.isRanged_enterCopy _ _
  | block hbindings h ih =>
      have hlast := (Machine.Continues.enter _ _ _).trans h.continues.1
      exact Nat.lt_of_lt_of_le hm hlast.evolves.scopes.size_le
  | call h ih => exact ih hm
  | body h ih =>
      have hlast := (Machine.Continues.enter _ _ _).trans h.continues.1
      exact Nat.lt_of_lt_of_le hm hlast.evolves.scopes.size_le

/-- Another scope is current only inside what is called. -/
theorem current (h : Saga limits true m journal n) : n.current = m.current := by
  generalize hentering : true = entering at h
  induction h with
  | step h => exact h.current
  | note e => rfl
  | append h h' ih ih' => exact (ih' hentering).trans (ih hentering)
  | body h ih => rfl
  | store | copy | block | call => cases hentering

/-- The code of a call runs in scopes that belong to the call, unless it runs in a call that was
made meanwhile. -/
theorem inCall
    {closure : ScopeId}
    {receiver : InstanceId}
    (h : Saga limits false m journal n)
    (hm : m.IsRanged)
    (hcall : m.scopes.InCall closure receiver m.current) :
    n.scopes.InCall closure receiver n.current ∧
      ∀ e ∈ journal, e.machine.frames.length = m.frames.length →
        e.machine.scopes.InCall closure receiver e.machine.current := by
  generalize hentering : false = entering at h
  induction h with
  | step h =>
      rw [h.current]
      exact ⟨hcall.extend h.evolves.scopes hm, by simp⟩
  | note e => exact ⟨hcall, by simpa using hcall⟩
  | append h h' ih ih' =>
      obtain ⟨hmiddle, hevents⟩ := ih hm hcall hentering
      obtain ⟨hlast, hevents'⟩ := ih' (h.isRanged hm) hmiddle hentering
      rw [h.frames.1] at hevents'
      exact ⟨hlast, fun e he => (List.mem_append.mp he).elim (hevents e) (hevents' e)⟩
  | store hstores h ih =>
      obtain ⟨hlast, hevents⟩ := ih hm hcall rfl
      refine ⟨hlast, fun e he => ?_⟩
      rcases List.mem_cons.mp he with rfl | he
      · exact fun _ => hcall
      · exact hevents e he
  | copy => exact ⟨hcall.copy hm, by simp⟩
  | @block m n bindings _ hbindings h ih =>
      have hinner : (m.enter m.current bindings).scopes.InCall closure receiver
          (m.enter m.current bindings).current := by
        rw [Machine.enter_eq]
        exact hcall.create hm hbindings
      obtain ⟨-, hevents⟩ := ih (m.isRanged_enter _ _) hinner rfl
      rw [Machine.frames_enter] at hevents
      have hlast := (Machine.Continues.enter _ _ _).trans h.continues.1
      exact ⟨hcall.extend hlast.evolves.scopes hm, hevents⟩
  | @call m n frame _ h ih =>
      have hlast := (Machine.Continues.pushFrame m frame).trans h.continues.1
      refine ⟨?_, fun e he heq => ?_⟩
      · have hcurrent : n.popFrame.current = m.current := h.current
        rw [hcurrent]
        exact hcall.extend hlast.evolves.scopes hm
      · have hmore : m.frames.length + 1 ≤ e.machine.frames.length := h.frames.2 e he
        omega
  | body => cases hentering

/-- Fields that were not there before were set by assignments to properties. -/
theorem hasField
    {id : InstanceId}
    {name : String}
    {v : Value}
    (h : Saga limits entering m journal n) :
    (n.HasField id name v → m.HasField id name v ∨ ∃ a ∈ journal, a.Stores id name v limits) ∧
      Throughout (fun past e => e.machine.HasField id name v →
        m.HasField id name v ∨ ∃ a ∈ past, a.Stores id name v limits) journal := by
  induction h with
  | step h => exact ⟨fun hn => .inl (hn.of_retains h.retains), .nil⟩
  | note e => exact ⟨.inl, .cons .inl .nil⟩
  | append h h' ih ih' =>
      refine ⟨fun ho => ?_, ih.2.append (ih'.2.mono fun past e hlater he => ?_)⟩
      · rcases ih'.1 ho with hn | ⟨a, ha, hstores⟩
        · exact (ih.1 hn).imp_right fun ⟨a, ha, hstores⟩ =>
            ⟨a, List.mem_append_left _ ha, hstores⟩
        · exact .inr ⟨a, List.mem_append_right _ ha, hstores⟩
      · rcases hlater he with hn | ⟨a, ha, hstores⟩
        · exact (ih.1 hn).imp_right fun ⟨a, ha, hstores⟩ =>
            ⟨a, List.mem_append_left _ ha, hstores⟩
        · exact .inr ⟨a, List.mem_append_right _ ha, hstores⟩
  | store hstores h ih =>
      refine ⟨fun hn => ?_, .cons .inl (ih.2.mono fun past e hlater he => ?_)⟩
      · rcases hn.of_withField with hn | ⟨rfl, rfl, rfl⟩
        · exact (ih.1 hn).imp_right fun ⟨a, ha, hstores⟩ =>
            ⟨a, List.mem_cons_of_mem _ ha, hstores⟩
        · exact .inr ⟨_, List.mem_cons_self, hstores⟩
      · exact (hlater he).imp_right fun ⟨a, ha, hstores⟩ => ⟨a, List.mem_cons_of_mem _ ha, hstores⟩
  | copy => exact ⟨.inl, .nil⟩
  | @block m n bindings _ _ h ih =>
      have henter : (m.enter m.current bindings).instances = m.instances := by
        rw [Machine.enter_eq]
      exact ⟨fun hn => (ih.1 hn).imp_left (.of_eq henter),
        ih.2.mono fun past e hpast he => (hpast he).imp_left (.of_eq henter)⟩
  | call h ih => exact ih
  | @body m n parent bindings _ h ih =>
      have henter : (m.enter parent bindings).instances = m.instances := by
        rw [Machine.enter_eq]
      exact ⟨fun hn => (ih.1 hn).imp_left (.of_eq henter),
        ih.2.mono fun past e hpast he => (hpast he).imp_left (.of_eq henter)⟩

end Saga

end Lox
