import Lox.Proofs.Entering
import Lox.Proofs.Journal.Run
import Lox.Proofs.Reference

/-!
# Chronicles

A journal says what was begun, but not what became of the scopes in between. A `Chronicle` says that
as well: it is put together from operations that run no code, assignments, blocks, calls and answers
in the way in which the evaluator does it, but without the values. What is to be known about a run
and its scopes can be shown by induction on its chronicle.
-/

namespace Lox

/-- The scopes of the earlier machine are there in the later one, with the same parents and names.
-/
def Machine.Precedes (m n : Machine) : Prop :=
  m.scopes.Kept (fun _ _ => True) n.scopes

namespace Machine.Precedes

variable {m n o : Machine}

theorem refl (m : Machine) : m.Precedes m :=
  Scopes.Kept.refl m.scopes

theorem trans (h : m.Precedes n) (h' : n.Precedes o) : m.Precedes o :=
  Scopes.Kept.trans h h'

theorem of_eq (h : n.scopes = m.scopes) : m.Precedes n := by
  unfold Machine.Precedes
  rw [h]
  exact .refl _

theorem enter (m : Machine) (parent : ScopeId) (bindings : List Binding) :
    m.Precedes (m.enter parent bindings) := by
  rw [Machine.enter_eq]
  exact Scopes.Kept.create _ _

theorem bindThis (m : Machine) (parent : ScopeId) (receiver : InstanceId) :
    m.Precedes (m.bindThis parent receiver) := by
  rw [Machine.bindThis_eq]
  exact Scopes.Kept.create _ _

theorem enterCopy (m : Machine) (scope : ScopeId) : m.Precedes (m.enterCopy scope) :=
  Scopes.Kept.create _ _

theorem assign (m : Machine) (scope : ScopeId) (name : String) (v : Value) :
    m.Precedes (m.assign scope name v).2 :=
  Scopes.Kept.assign _ _ _ _

end Machine.Precedes

section Definitions

/-- Names are bound at most in the current scope and in new scopes. -/
structure Machine.Defines (m n : Machine) : Prop where
  precedes : m.Precedes n
  current : n.current = m.current
  frames : n.frames = m.frames
  others : ∀ id < m.scopes.all.size, id ≠ m.current → n.scopes.get id = m.scopes.get id

namespace Machine.Defines

variable {m n o : Machine}

theorem of_eq
    (hscopes : n.scopes = m.scopes)
    (hcurrent : n.current = m.current)
    (hframes : n.frames = m.frames) :
    m.Defines n :=
  ⟨.of_eq hscopes, hcurrent, hframes, fun _ _ _ => by rw [hscopes]⟩

theorem refl (m : Machine) : m.Defines m :=
  of_eq rfl rfl rfl

theorem trans (h : m.Defines n) (h' : n.Defines o) : m.Defines o where
  precedes := h.precedes.trans h'.precedes
  current := h'.current.trans h.current
  frames := h'.frames.trans h.frames
  others id hid hne := by
    rw [h'.others id (Nat.lt_of_lt_of_le hid h.precedes.size_le) (h.current ▸ hne),
      h.others id hid hne]

theorem define (m : Machine) (b : Binding) : m.Defines (m.define m.current b) where
  precedes := Scopes.Kept.define _ trivial
  current := rfl
  frames := rfl
  others _ _ hne := Scopes.get_define_of_ne b hne

theorem bindSuper (m : Machine) (superclass : ClassId) :
    m.Defines (m.bindSuper m.current superclass) := by
  rw [Machine.bindSuper_eq]
  exact ⟨Scopes.Kept.create _ _, rfl, rfl,
    fun _ hid _ => Scopes.get_create_of_ne _ (Nat.ne_of_lt hid)⟩

instance : IsPreorder Machine Machine.Defines where
  refl := refl
  trans _ _ _ := trans

instance : Eval.Declaring Machine.Defines where
  contents _ _ _ _ _ _ := of_eq rfl rfl rfl
  bindMethod _ _ _ := of_eq rfl rfl rfl
  lastValue _ _ := of_eq rfl rfl rfl
  define := define
  newClosure _ _ _ _ _ := of_eq rfl rfl rfl
  bindSuper := bindSuper
  newMethod _ _ _ _ := of_eq rfl rfl rfl
  newClass _ _ := of_eq rfl rfl rfl

end Machine.Defines

end Definitions

section Entering

/-- The current scope is there. -/
def Machine.IsRanged (m : Machine) : Prop :=
  m.current < m.scopes.all.size

/-- The scope around the current one is older. -/
def Machine.IsNested (m : Machine) : Prop :=
  ∀ parent, (m.scopes.get m.current).parent = some parent → parent < m.current

namespace Machine

variable (m : Machine) (parent : ScopeId) (bindings : List Binding)

@[simp] theorem current_enter : (m.enter parent bindings).current = m.scopes.all.size := by
  rw [enter_eq]

@[simp] theorem frames_enter : (m.enter parent bindings).frames = m.frames := by
  rw [enter_eq]

@[simp] theorem size_enter :
    (m.enter parent bindings).scopes.all.size = m.scopes.all.size + 1 := by
  rw [enter_eq]
  simp

@[simp] theorem get_enter_self :
    (m.enter parent bindings).scopes.get m.scopes.all.size =
      ⟨some parent, Scope.bound bindings⟩ := by
  rw [enter_eq]
  simp

theorem get_enter_of_lt {id : ScopeId} (h : id < m.scopes.all.size) :
    (m.enter parent bindings).scopes.get id = m.scopes.get id := by
  rw [enter_eq]
  exact Scopes.get_create_of_ne _ (Nat.ne_of_lt h)

@[simp] theorem size_bindThis (receiver : InstanceId) :
    (m.bindThis parent receiver).scopes.all.size = m.scopes.all.size + 1 := by
  rw [bindThis_eq]
  simp

theorem get_bindThis_self (receiver : InstanceId) :
    (m.bindThis parent receiver).scopes.get m.scopes.all.size =
      ⟨some parent, [⟨"this", .instance receiver, false⟩]⟩ := by
  rw [bindThis_eq]
  simp

theorem get_bindThis_of_lt {id : ScopeId} (receiver : InstanceId) (h : id < m.scopes.all.size) :
    (m.bindThis parent receiver).scopes.get id = m.scopes.get id := by
  rw [bindThis_eq]
  exact Scopes.get_create_of_ne _ (Nat.ne_of_lt h)

theorem isRanged_enter : (m.enter parent bindings).IsRanged := by
  simp [IsRanged]

theorem isRanged_enterCopy : (m.enterCopy parent).IsRanged := by
  simp [IsRanged, enterCopy, Scopes.copy, Scopes.create]

variable {m} in
/-- A scope that is entered from the current one is nested in it. -/
theorem IsRanged.isNested_enter (hm : m.IsRanged) : (m.enter m.current bindings).IsNested := by
  intro parent hparent
  rw [current_enter, get_enter_self] at hparent
  obtain rfl := Option.some.inj hparent
  rwa [current_enter]

variable {m} in
theorem IsNested.later
    {n : Machine}
    (h : m.IsNested)
    (hm : m.IsRanged)
    (hprecedes : m.Precedes n)
    (hcurrent : n.current = m.current) :
    n.IsNested := by
  unfold IsNested
  rw [hcurrent, (hprecedes.scope m.current hm).parent]
  exact h

variable {m} in
theorem IsNested.enterCopy (h : m.IsNested) (hm : m.IsRanged) :
    (m.enterCopy m.current).IsNested := by
  have hcopy : (m.enterCopy m.current).scopes.get m.scopes.all.size = m.scopes.get m.current :=
    Scopes.get_create_self _ _
  intro parent hparent
  exact Nat.lt_trans (h parent (hcopy ▸ hparent)) hm

end Machine

/-- The body of a function that was made in the scope is entered. The body of a method is inside a
scope of its own that binds `this`. -/
inductive Machine.Enters (m : Machine) : List Stmt → ScopeId → Machine → Prop
  | function
      {id : FunctionId}
      {name : String}
      {params : List String}
      {body : List Stmt}
      {scope : ScopeId}
      (arguments : List Value)
      (h : m.functions[id]? = some (.closure name params body scope)) :
      m.Enters body scope (m.enter scope (parameterBindings params arguments))
  | method
      {id : MethodId}
      {f : MethodObject}
      (receiver : InstanceId)
      (arguments : List Value)
      (h : m.methods[id]? = some f) :
      m.Enters f.body f.scope
        ((m.bindThis f.scope receiver).enter m.scopes.all.size
          (parameterBindings f.params arguments))

/-- The current scope is that of the body of a function or method that was made in the scope. -/
inductive Machine.Runs (m : Machine) : List Stmt → ScopeId → Prop
  | function
      {id : FunctionId}
      {name : String}
      {params : List String}
      {body : List Stmt}
      {scope : ScopeId}
      (h : m.functions[id]? = some (.closure name params body scope))
      (hparent : (m.scopes.get m.current).parent = some scope) :
      m.Runs body scope
  | method
      {id : MethodId}
      {f : MethodObject}
      {inner : ScopeId}
      (h : m.methods[id]? = some f)
      (hparent : (m.scopes.get m.current).parent = some inner)
      (hinner : (m.scopes.get inner).parent = some f.scope) :
      m.Runs f.body f.scope

namespace Machine.Enters

variable {m n : Machine} {body : List Stmt} {scope : ScopeId}

theorem precedes (h : m.Enters body scope n) : m.Precedes n := by
  cases h with
  | function arguments h => exact .enter m _ _
  | method receiver arguments h => exact (Precedes.bindThis m _ _).trans (.enter _ _ _)

theorem frames (h : m.Enters body scope n) : n.frames = m.frames := by
  cases h with
  | function arguments h => rw [frames_enter]
  | method receiver arguments h =>
      rw [frames_enter, bindThis_eq]

/-- A new scope is entered. -/
theorem isRanged (h : m.Enters body scope n) : m.scopes.all.size ≤ n.current ∧ n.IsRanged := by
  unfold Machine.IsRanged
  cases h with
  | function arguments h => simp
  | method receiver arguments h => simp

/-- Only new scopes are different. -/
theorem others {id : ScopeId} (h : m.Enters body scope n) (hid : id < m.scopes.all.size) :
    n.scopes.get id = m.scopes.get id := by
  cases h with
  | function arguments h => exact get_enter_of_lt m _ _ hid
  | method receiver arguments h =>
      rw [get_enter_of_lt _ _ _ (by simpa using Nat.lt_succ_of_lt hid),
        get_bindThis_of_lt m _ receiver hid]

theorem runs (h : m.Enters body scope n) : n.Runs body scope := by
  cases h with
  | @function id name params body scope arguments h =>
      have hfunctions : (m.enter scope (parameterBindings params arguments)).functions =
          m.functions := by rw [enter_eq]
      exact .function (hfunctions ▸ h) (by simp)
  | @method id f receiver arguments h =>
      have hmethods : ((m.bindThis f.scope receiver).enter m.scopes.all.size
          (parameterBindings f.params arguments)).methods = m.methods := by
        rw [enter_eq, bindThis_eq]
      refine .method (hmethods ▸ h) (congrArg Scope.parent (get_enter_self _ _ _)) ?_
      rw [get_enter_of_lt _ _ _ (by simp), get_bindThis_self]

/-- In the body of a function, a name stands for what was bound before the call only if it does so
where the function was made. -/
theorem refers
    {name : String}
    {owner : ScopeId}
    (h : m.Enters body scope n)
    (howner : owner < m.scopes.all.size)
    (hrefers : n.scopes.Refers n.current name owner) :
    n.scopes.Refers scope name owner := by
  rcases hrefers.cases with ⟨heq, -⟩ | ⟨-, parent, hparent, -, houter⟩
  · exact absurd heq (Nat.ne_of_lt (Nat.lt_of_lt_of_le howner h.isRanged.1))
  cases h with
  | @function _ _ _ _ _ arguments h =>
      rw [current_enter, get_enter_self] at hparent
      obtain rfl := Option.some.inj hparent
      exact houter
  | @method _ f receiver arguments h =>
      rw [current_enter, get_enter_self] at hparent
      obtain rfl := Option.some.inj hparent
      rcases houter.cases with ⟨heq, -⟩ | ⟨-, parent, hparent, -, houter⟩
      · exact absurd heq (Nat.ne_of_lt howner)
      · rw [get_enter_of_lt _ _ _ (by simp), get_bindThis_self] at hparent
        obtain rfl := Option.some.inj hparent
        exact houter

end Machine.Enters

end Entering

variable {limits : Limits} {m n : Machine} {journal : List Event}

/-- From one machine to another by way of the events of a journal. -/
inductive Chronicle (limits : Limits) : Machine → List Event → Machine → Prop
  /-- An operation that runs no code and assigns nothing. -/
  | step
      {m n : Machine}
      (h : m.Defines n) :
      Chronicle limits m [] n
  /-- A copy of the current scope becomes the current one. -/
  | copy
      {m : Machine}
      (h : m.IsNested) :
      Chronicle limits m [] (m.enterCopy m.current)
  /-- An event, but not a beginning. -/
  | note
      {e : Event}
      (h : ∀ q m, e ≠ .began q m) :
      Chronicle limits e.machine [e] e.machine
  | append
      {m n o : Machine}
      {journal later : List Event}
      (h : Chronicle limits m journal n)
      (h' : Chronicle limits n later o) :
      Chronicle limits m (journal ++ later) o
  /-- The answer to a question. -/
  | answer
      {m n : Machine}
      {room : Nat}
      {q : Question}
      {journal : List Event}
      (hjournal : (Recorder.ofRoom limits room).journal q m = .began q m :: journal)
      (hleaves : (Recorder.ofRoom limits room).evaluator.leaves q m = n)
      (hcurrent : n.current = m.current)
      (h : Chronicle limits m journal n) :
      Chronicle limits m (.began q m :: journal) n
  /-- An assignment, after its value was evaluated. -/
  | assign
      {m n : Machine}
      {name : String}
      {value : Expr}
      {span : Span}
      {v : Value}
      {journal notes : List Event}
      (hcurrent : n.current = m.current)
      (h : Chronicle limits m journal n)
      (hnotes : ∀ e ∈ notes,
        e.machine = (n.assign n.current name v).2 ∧ ∀ q m, e ≠ .began q m) :
      Chronicle limits m (.began (.evaluate (.assign name value span)) m :: (journal ++ notes))
        (n.assign n.current name v).2
  /-- A new scope inside the current one. -/
  | block
      {m n : Machine}
      {bindings : List Binding}
      {journal : List Event}
      (h : Chronicle limits (m.enter m.current bindings) journal n) :
      Chronicle limits m journal (n.leave m.current)
  /-- A call that runs no body. -/
  | frame
      {m n : Machine}
      {frame : Frame}
      {journal : List Event}
      (h : Chronicle limits (m.pushFrame frame) journal n) :
      Chronicle limits m journal n.popFrame
  /-- A call that runs the body of a function or method, which begins before anything else. -/
  | call
      {m before entered n : Machine}
      {frame : Frame}
      {body : List Stmt}
      {scope : ScopeId}
      {journal : List Event}
      (hbefore : (m.pushFrame frame).Defines before)
      (henters : before.Enters body scope entered)
      (hbegan : ∀ q o, .began q o ∈ journal →
        ∃ rest, journal = .began (.run body) entered :: rest)
      (h : Chronicle limits entered journal n) :
      Chronicle limits m journal (n.leave m.current).popFrame

namespace Chronicle

theorem nil (m : Machine) : Chronicle limits m [] m :=
  .step (.refl m)

/-- Scopes are only added, and names in them. -/
theorem precedes (h : Chronicle limits m journal n) :
    m.Precedes n ∧ ∀ e ∈ journal, m.Precedes e.machine := by
  induction h with
  | step h => exact ⟨h.precedes, by simp⟩
  | copy h => exact ⟨.enterCopy _ _, by simp⟩
  | @note e h => exact ⟨.refl _, by simp [Machine.Precedes.refl]⟩
  | append h h' ih ih' =>
      refine ⟨ih.1.trans ih'.1, fun e he => ?_⟩
      rcases List.mem_append.mp he with he | he
      · exact ih.2 e he
      · exact ih.1.trans (ih'.2 e he)
  | answer _ _ _ _ ih =>
      refine ⟨ih.1, fun e he => ?_⟩
      rcases List.mem_cons.mp he with rfl | he
      · exact .refl _
      · exact ih.2 e he
  | @assign _ n name _ _ v _ _ _ _ hnotes ih =>
      have hlast := ih.1.trans (Machine.Precedes.assign n n.current name v)
      refine ⟨hlast, fun e he => ?_⟩
      rcases List.mem_cons.mp he with rfl | he
      · exact .refl _
      rcases List.mem_append.mp he with he | he
      · exact ih.2 e he
      · exact (hnotes e he).1 ▸ hlast
  | @block m _ bindings _ h ih =>
      have henter := Machine.Precedes.enter m m.current bindings
      exact ⟨henter.trans ih.1, fun e he => henter.trans (ih.2 e he)⟩
  | frame h ih => exact ⟨ih.1, ih.2⟩
  | call hbefore henters _ _ ih =>
      have henter := hbefore.precedes.trans henters.precedes
      exact ⟨henter.trans ih.1, fun e he => henter.trans (ih.2 e he)⟩

/-- The calls that are active at the beginning are active all the time, and no others at the end. -/
theorem frames (h : Chronicle limits m journal n) :
    n.frames = m.frames ∧ ∀ e ∈ journal, m.frames.length ≤ e.machine.frames.length := by
  induction h with
  | step h => exact ⟨h.frames, by simp⟩
  | copy h => exact ⟨rfl, by simp⟩
  | @note e h => exact ⟨rfl, by simp⟩
  | append h h' ih ih' =>
      refine ⟨ih'.1.trans ih.1, fun e he => ?_⟩
      rcases List.mem_append.mp he with he | he
      · exact ih.2 e he
      · exact ih.1 ▸ ih'.2 e he
  | answer _ _ _ _ ih =>
      refine ⟨ih.1, fun e he => ?_⟩
      rcases List.mem_cons.mp he with rfl | he
      · exact Nat.le_refl _
      · exact ih.2 e he
  | assign _ _ hnotes ih =>
      refine ⟨ih.1, fun e he => ?_⟩
      rcases List.mem_cons.mp he with rfl | he
      · exact Nat.le_refl _
      rcases List.mem_append.mp he with he | he
      · exact ih.2 e he
      · rw [(hnotes e he).1]
        exact Nat.le_of_eq (congrArg List.length ih.1.symm)
  | block h ih =>
      rw [Machine.frames_enter] at ih
      exact ih
  | frame h ih =>
      refine ⟨congrArg List.tail ih.1, fun e he => ?_⟩
      exact Nat.le_trans (Nat.le_succ _) (ih.2 e he)
  | call hbefore henters _ _ ih =>
      rw [henters.frames, hbefore.frames] at ih
      refine ⟨congrArg List.tail ih.1, fun e he => ?_⟩
      exact Nat.le_trans (Nat.le_succ _) (ih.2 e he)

/-- The current scope is always there, and in the end it is the one from the beginning or one that
was not there before. -/
theorem isRanged (h : Chronicle limits m journal n) (hm : m.IsRanged) :
    n.IsRanged ∧ (n.current = m.current ∨ m.scopes.all.size ≤ n.current) ∧
      ∀ e ∈ journal, e.machine.IsRanged := by
  induction h with
  | step h =>
      refine ⟨?_, .inl h.current, by simp⟩
      unfold Machine.IsRanged
      rw [h.current]
      exact Nat.lt_of_lt_of_le hm h.precedes.size_le
  | copy h =>
      exact ⟨Machine.isRanged_enterCopy _ _, .inr (Nat.le_refl _), by simp⟩
  | @note e h => exact ⟨hm, .inl rfl, by simpa using hm⟩
  | append h h' ih ih' =>
      obtain ⟨hmiddle, hcurrent, hevents⟩ := ih hm
      obtain ⟨hlast, hcurrent', hevents'⟩ := ih' hmiddle
      refine ⟨hlast, ?_, fun e he => (List.mem_append.mp he).elim (hevents e) (hevents' e)⟩
      rcases hcurrent' with heq | hle
      · exact heq ▸ hcurrent
      · exact .inr (Nat.le_trans h.precedes.1.size_le hle)
  | answer _ _ _ _ ih =>
      obtain ⟨hlast, hcurrent, hevents⟩ := ih hm
      refine ⟨hlast, hcurrent, fun e he => ?_⟩
      rcases List.mem_cons.mp he with rfl | he
      · exact hm
      · exact hevents e he
  | @assign _ n name _ _ v _ _ _ _ hnotes ih =>
      obtain ⟨hlast, hcurrent, hevents⟩ := ih hm
      have hlast' := Nat.lt_of_lt_of_le hlast (Machine.Precedes.assign n n.current name v).size_le
      refine ⟨hlast', hcurrent, fun e he => ?_⟩
      rcases List.mem_cons.mp he with rfl | he
      · exact hm
      rcases List.mem_append.mp he with he | he
      · exact hevents e he
      · exact (hnotes e he).1 ▸ hlast'
  | block h ih =>
      have henter := (Machine.Precedes.enter _ _ _).trans h.precedes.1
      exact ⟨Nat.lt_of_lt_of_le hm henter.size_le, .inl rfl,
        (ih (Machine.isRanged_enter _ _ _)).2.2⟩
  | frame h ih =>
      exact ih hm
  | call hbefore henters _ h ih =>
      have hlast := (hbefore.precedes.trans henters.precedes).trans h.precedes.1
      exact ⟨Nat.lt_of_lt_of_le hm hlast.size_le, .inl rfl, (ih henters.isRanged.2).2.2⟩

/-- A current scope that is nested stays so, or gives way to one that is. -/
theorem isNested (h : Chronicle limits m journal n) (hm : m.IsRanged) (hnested : m.IsNested) :
    n.IsNested := by
  induction h with
  | step h => exact hnested.later hm h.precedes h.current
  | copy h => exact h.enterCopy hm
  | note h => exact hnested
  | append h h' ih ih' => exact ih' (h.isRanged hm).1 (ih hm hnested)
  | answer _ _ hcurrent h => exact hnested.later hm h.precedes.1 hcurrent
  | assign hcurrent h =>
      exact hnested.later hm (h.precedes.1.trans (.assign _ _ _ _)) hcurrent
  | block h => exact hnested.later hm ((Machine.Precedes.enter _ _ _).trans h.precedes.1) rfl
  | frame h ih => exact ih hm hnested
  | call hbefore henters _ h =>
      exact hnested.later hm
        ((hbefore.precedes.trans henters.precedes).trans h.precedes.1) rfl

/-- In a copy, a name stands for a binding from before only if it does so in what was copied. -/
theorem refers_enterCopy
    {name : String}
    {owner : ScopeId}
    {b : Binding}
    (h : m.IsNested)
    (hm : m.IsRanged)
    (hfind : (m.scopes.get owner).find? name = some b)
    (hrefers : (m.enterCopy m.current).scopes.Refers m.scopes.all.size name owner) :
    m.scopes.Refers m.current name owner := by
  have hcopy : (m.enterCopy m.current).scopes.get m.scopes.all.size = m.scopes.get m.current :=
    Scopes.get_create_self _ _
  rcases hrefers.cases with ⟨heq, -⟩ | ⟨hnone, parent, houter, -, hrefers⟩
  · exact absurd heq (Nat.ne_of_lt (Scopes.lt_size_of_find? hfind))
  · rw [hcopy] at hnone houter
    have hlt := h parent houter
    exact ((Machine.Precedes.enterCopy m m.current).refers hfind (Nat.lt_trans hlt hm)
      hrefers).of_parent hnone houter hlt

/-- In the current scope, a name stands at the end for a binding from the beginning only if it did
so at the beginning. -/
theorem refers
    {name : String}
    {owner : ScopeId}
    {b : Binding}
    (h : Chronicle limits m journal n)
    (hm : m.IsRanged)
    (hfind : (m.scopes.get owner).find? name = some b)
    (hrefers : n.scopes.Refers n.current name owner) :
    m.scopes.Refers m.current name owner := by
  -- unless another scope is current in the end, all there is to show is that no binding goes
  have hsame (heq : n.current = m.current) : m.scopes.Refers m.current name owner :=
    h.precedes.1.refers hfind hm (heq ▸ hrefers)
  induction h generalizing b with
  | copy h => exact refers_enterCopy h hm hfind hrefers
  | @append m n o _ _ h h' ih ih' =>
      have howner := h.precedes.1.scope owner (Scopes.lt_size_of_find? hfind)
      obtain ⟨c, hc⟩ := howner.exists_find? hfind
      have hn := (h.isRanged hm).1
      have hmiddle : n.scopes.Refers n.current name owner :=
        ih' hn hc hrefers fun heq => h'.precedes.1.refers hc hn (heq ▸ hrefers)
      exact ih hm hfind hmiddle fun heq => h.precedes.1.refers hfind hm (heq ▸ hmiddle)
  | step h => exact hsame h.current
  | note h => exact hrefers
  | answer _ _ hcurrent => exact hsame hcurrent
  | assign hcurrent => exact hsame hcurrent
  | block => exact hsame rfl
  | frame h ih => exact ih hm hfind hrefers hsame
  | call => exact hsame rfl

end Chronicle

end Lox
