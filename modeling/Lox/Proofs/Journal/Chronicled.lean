import Lox.Proofs.Journal.Chronicle
import Lox.Proofs.Journal.Narration

/-!
# Chronicles of runs

Chronicles are a narrative of any code: steps bind names at most in the current scope, and there are
chronicles of blocks, loops and declarations. In a call, what matters is when the body is entered
(`Recorded.Called`), and an assignment comes after its value. By induction on the room, the answers
of all recorders have chronicles (`Recorder.chronicled_ofRoom`).
-/

namespace Lox

section Narrative

/-- Any code may run. The setting says whether it is inside a block. -/
abbrev Discipline.anyCode : Discipline where
  Setting := Bool
  runs _ := True
  expr _ _ := True
  stmt _ _ := True
  body _ _ := True
  binds _ _ := True
  breaks _ := True
  returns _ := True
  block _ := true
  loop k := k
  runs_expr _ := trivial
  runs_stmt _ := trivial
  body_stmts _ _ _ := trivial
  runs_block _ := trivial
  block_block _ := rfl
  expr_block _ := trivial
  expr_parts _ _ _ := trivial
  stmt_expressions _ _ _ := trivial
  stmt_branches _ _ _ := trivial
  stmt_inner _ _ _ := trivial
  stmt_loopBody _ _ _ := trivial
  stmt_handlerNames _ _ _ := trivial
  stmt_break _ := trivial
  stmt_continue _ := trivial
  stmt_return _ := trivial
  breaks_block _ := trivial
  returns_block _ := trivial
  returns_loop _ := trivial

/-- Chronicles as a narrative. The scope of a block is nested in the one around it. -/
def Narrative.ofChronicles (limits : Limits) (inBlock : Bool) : Narrative where
  admits m := m.IsRanged ∧ (inBlock = true → m.IsNested)
  step := Machine.Defines
  tells := Chronicle limits

/-- Outside of blocks, it is enough that the current scope is there. -/
theorem Machine.IsRanged.admitted {m : Machine} (hm : m.IsRanged) (limits : Limits) :
    (Narrative.ofChronicles limits false).admits m :=
  ⟨hm, fun hblock => absurd hblock Bool.false_ne_true⟩

instance (limits : Limits) (inBlock : Bool) : (Narrative.ofChronicles limits inBlock).Lawful where
  toOperating := inferInstanceAs (Eval.Operating Machine.Defines)
  told := .step
  note := .note
  append := .append
  admits_later h hm := ⟨(h.isRanged hm.1).1, fun hblock => h.isNested hm.1 (hm.2 hblock)⟩

instance (limits : Limits) : Narration .anyCode (Narrative.ofChronicles limits) where
  enter _ hm := ⟨Machine.isRanged_enter _ _ _, fun _ => hm.1.isNested_enter _⟩
  block _ h := .block h
  copy hm := .copy (hm.2 rfl)
  loop _ := rfl
  newClosure _ _ := .of_eq rfl rfl rfl
  newFunction _ _ := .of_eq rfl rfl rfl
  define _ _ _ _ _ := .define _ _
  defineClass _ _ _ :=
    (Eval.Elementary.defineClass _ _ _ : Eval.Elementary Machine.Defines _).steps _

end Narrative

/-- In the journal of a body, nothing begins before the body. -/
theorem Recorder.began_run
    {limits : Limits}
    {room : Nat}
    {body : List Stmt}
    {m n : Machine}
    {q : Question}
    (h : .began q n ∈ ((Recorder.ofRoom limits room).run body m).2) :
    ∃ rest, ((Recorder.ofRoom limits room).run body m).2 = .began (.run body) m :: rest := by
  cases room with
  | zero => cases List.mem_singleton.mp h
  | succ room => exact ⟨_, rfl⟩

namespace Recorded

variable {α β : Type} {limits : Limits} {m : Machine}

/-- What comes after a computation adds nothing to the journal and leaves the machine alone. -/
theorem bind_trailing
    {c : Recorded α}
    {f : α → Recorded β}
    (hf : ∀ a n, (f a n).2 = [] ∧ (f a n).1.machine = n) :
    ((c >>= f) m).2 = (c m).2 ∧ ((c >>= f) m).1.machine = (c m).1.machine := by
  cases ho : (c m).1 with
  | done a n =>
      rw [bind_done ho, (hf a n).1, List.append_nil]
      exact ⟨rfl, (hf a n).2⟩
  | stopped why n =>
      rw [bind_stopped ho]
      exact ⟨rfl, rfl⟩

/-- The body of a function is run on the machine on which it is entered, and then left. -/
theorem runBody_journal
    (R : Recorder)
    (arguments : List Value)
    (params : List String)
    (body : List Stmt)
    (scope : ScopeId)
    (m : Machine) :
    (runBody R params body scope arguments m).2 =
        (R.run body (m.enter scope (parameterBindings params arguments))).2 ∧
      (runBody R params body scope arguments m).1.machine =
        (R.run body (m.enter scope (parameterBindings params arguments))).1.machine.leave
          m.current := by
  have hresult (signal : Signal) (n : Machine) :
      (own (Eval.callResult signal) n).2 = [] ∧
        (own (Eval.callResult signal) n).1.machine = n := by
    cases signal <;> exact ⟨rfl, rfl⟩
  obtain ⟨hjournal, hmachine⟩ := @bind_trailing _ _ m _ _ hresult
  exact ⟨hjournal, hmachine.trans (Outcome.machine_onMachine _ _)⟩

/-- A computation in a call: it runs no body, or it runs one and that is all it does apart from
binding names before. -/
inductive Called (limits : Limits) (m : Machine) (c : Recorded α) : Prop
  | plain (h : (Narrative.ofChronicles limits false).Covers m c)
  | body
      {before entered n : Machine}
      {body : List Stmt}
      {scope : ScopeId}
      (hbefore : m.Defines before)
      (henters : before.Enters body scope entered)
      (hbegan : ∀ q o, .began q o ∈ (c m).2 →
        ∃ rest, (c m).2 = .began (.run body) entered :: rest)
      (h : Chronicle limits entered (c m).2 n)
      (hmachine : (c m).1.machine = n.leave m.current)

namespace Called

variable {c : Recorded α}

theorem inCall {frame : Frame} {inBlock : Bool} (h : Called limits (m.pushFrame frame) c) :
    (Narrative.ofChronicles limits inBlock).Covers m (inCall frame c) := by
  intro hm
  simp only [Recorded.inCall, Recorded.around, Outcome.machine_onMachine]
  cases h with
  | plain h => exact .frame (h (hm.1.admitted limits))
  | body hbefore henters hbegan h hmachine =>
      rw [hmachine]
      exact .call hbefore henters hbegan h

/-- The computation differs only in how it begins or ends. -/
theorem of_eq
    {d : Recorded β}
    {n : Machine}
    (hd : Called limits n d)
    (hn : m.Defines n)
    (hjournal : (c m).2 = (d n).2)
    (hmachine : (c m).1.machine = (d n).1.machine) :
    Called limits m c := by
  cases hd with
  | plain h =>
      refine .plain fun hm => ?_
      rw [hjournal, hmachine]
      have hstep : Chronicle limits m [] n := .step hn
      exact .append hstep (h ((hstep.isRanged hm.1).1.admitted limits))
  | body hbefore henters hbegan h hlast =>
      refine .body (hn.trans hbefore) henters ?_ (hjournal ▸ h)
        (hmachine.trans (hlast.trans (by rw [hn.current])))
      rw [hjournal]
      exact hbegan

/-- Something that runs no code comes first. -/
theorem after
    {e : Eval β}
    {f : β → Recorded α}
    (he : e.Elementary Machine.Defines)
    (hf : ∀ a n, e m = .done a n → Called limits n (f a)) :
    Called limits m (own e >>= f) := by
  have hstep := he.steps m
  have hown : (own e m).1 = e m := rfl
  cases ho : e m with
  | done a n =>
      rw [ho] at hstep
      have heq : (own e >>= f) m = f a n := by
        rw [bind_done (hown.trans ho)]
        simp only [own, ho, Outcome.raised_done, List.nil_append]
      exact (hf a n ho).of_eq hstep (congrArg Prod.snd heq) (congrArg (·.1.machine) heq)
  | stopped why n =>
      refine .plain fun hm => ?_
      have h : (Narrative.ofChronicles limits false).tells m (own e m).2 (own e m).1.machine :=
        Narrative.Covers.elementary he hm
      rw [bind_stopped (hown.trans ho)]
      rw [hown, ho] at h
      exact h

/-- Something that does nothing to the machine comes last. -/
theorem trailing
    {f : α → Recorded β}
    (hc : Called limits m c)
    (hf : ∀ a n, (f a n).2 = [] ∧ (f a n).1.machine = n) :
    Called limits m (c >>= f) :=
  hc.of_eq (.refl m) (bind_trailing hf).1 (bind_trailing hf).2

section Calls

variable {room : Nat} (hR : (Recorder.ofRoom limits room).Narrates .anyCode (.ofChronicles limits))
variable (arguments : List Value)

include hR

/-- The body of a function that was made in a scope. -/
theorem runFunctionBody
    {id : FunctionId}
    {name : String}
    {params : List String}
    {body : List Stmt}
    {scope : ScopeId}
    (h : m.functions[id]? = some (.closure name params body scope)) :
    Called limits m (runBody (.ofRoom limits room) params body scope arguments) := by
  obtain ⟨hjournal, hmachine⟩ :=
    runBody_journal (.ofRoom limits room) arguments params body scope m
  have henters : m.Enters body scope (m.enter scope (parameterBindings params arguments)) :=
    .function arguments h
  refine .body (.refl m) henters ?_ ?_ hmachine
  · rw [hjournal]
    exact fun _ _ => Recorder.began_run
  · rw [hjournal]
    exact hR.run trivial _ (henters.isRanged.2.admitted limits)

theorem runMethod (receiver : InstanceId) (method : MethodId) (m : Machine) :
    Called limits m (runMethod (.ofRoom limits room) receiver method arguments) := by
  refine .after (.ask _) fun f n hn => ?_
  cases hn
  dsimp only
  cases hf : m.methods[method]? with
  | none => exact .plain (.pure _)
  | some f =>
      obtain ⟨hjournal, hmachine⟩ := runBody_journal (.ofRoom limits room) arguments f.params
        f.body m.scopes.all.size (m.bindThis f.scope receiver)
      have henters := Machine.Enters.method receiver arguments hf
      -- the scope that binds `this` is made first
      have hbody : Called limits m fun m =>
          runBody (.ofRoom limits room) f.params f.body m.scopes.all.size arguments
            (m.bindThis f.scope receiver) := by
        refine .body (.refl m) henters ?_ ?_ hmachine
        · rw [hjournal]
          exact fun _ _ => Recorder.began_run
        · rw [hjournal]
          exact hR.run trivial _ (henters.isRanged.2.admitted limits)
      exact hbody.trailing fun _ _ => ⟨rfl, rfl⟩

theorem runFunction (id : FunctionId) (m : Machine) :
    Called limits m (runFunction (.ofRoom limits room) id arguments) := by
  refine .after (.ask _) fun f n hn => ?_
  cases hn
  dsimp only
  cases hf : m.functions[id]? with
  | none => exact .plain (.pure _)
  | some f =>
      cases f with
      | closure name params body scope => exact runFunctionBody hR arguments hf
      | bound receiver method => exact runMethod hR arguments receiver method m

theorem construct (classId : ClassId) (m : Machine) :
    Called limits m (construct (.ofRoom limits room) classId arguments) := by
  refine .after (.make fun _ => .of_eq rfl rfl rfl) fun id n _ => ?_
  refine .after (.ask _) fun method n' _ => ?_
  cases method with
  | none => exact .plain (.pure _)
  | some method =>
      refine (runMethod hR arguments id method n').trailing ?_
      exact fun _ _ => ⟨rfl, rfl⟩

theorem invoke (callee : Value) (m : Machine) :
    Called limits m (invoke (.ofRoom limits room) callee arguments) := by
  cases callee with
  | function id => exact runFunction hR arguments id m
  | native id => exact .plain (.elementary (.callNative id arguments))
  | «class» id => exact construct hR arguments id m
  | nil | boolean | number | string | «instance» | list | map => exact .plain (.pure _)

end Calls

end Called

end Recorded

section Rooms

variable {limits : Limits} {room : Nat} {inBlock : Bool}

/-- An answer ends in the scope in which it starts. -/
theorem Evaluator.current_leaves (limits : Limits) (room : Nat) (q : Question) (m : Machine) :
    ((Evaluator.ofRoom limits room).leaves q m).current = m.current := by
  cases q with
  | evaluate e => exact Eval.Returning.evaluate limits room e m
  | execute s => exact Eval.Returning.execute limits room s m
  | run body =>
      cases room with
      | zero => rfl
      | succ room => exact Eval.Returning.executeAll limits room body m

/-- An answer has a chronicle if what it consists of has one. -/
theorem Chronicle.of_parts
    {q : Question}
    {m n : Machine}
    {journal : List Event}
    (hjournal : (Recorder.ofRoom limits room).journal q m = .began q m :: journal)
    (hleaves : (Recorder.ofRoom limits room).evaluator.leaves q m = n)
    (h : Chronicle limits m journal n) :
    Chronicle limits m ((Recorder.ofRoom limits room).journal q m) n := by
  have hcurrent := Evaluator.current_leaves limits room q m
  rw [← Recorder.evaluator_ofRoom, hleaves] at hcurrent
  exact hjournal ▸ .answer hjournal hleaves hcurrent h

theorem Eval.machine_assign (name : String) (v : Value) (m : Machine) :
    (Eval.assign name v m).machine = (m.assign m.current name v).2 := by
  simp only [Eval.assign, Eval.attempt]
  cases (m.assign m.current name v).1 <;> rfl

/-- An assignment to a variable is carried out after its value was evaluated. -/
theorem Recorder.Narrates.assign
    (hR : (Recorder.ofRoom limits room).Narrates .anyCode (.ofChronicles limits))
    (name : String)
    (value : Expr)
    (span : Span)
    (m : Machine) :
    (Narrative.ofChronicles limits inBlock).Covers m
      ((Recorder.ofRoom limits (room + 1)).evaluate (.assign name value span)) := by
  intro hm
  let store (v : Value) : Recorded Value := Recorded.own (Eval.assign name v) >>= fun _ => pure v
  let parts : Recorded Value := (Recorder.ofRoom limits room).evaluate value >>= store
  have hjournal : ((Recorder.ofRoom limits (room + 1)).evaluate (.assign name value span) m).2 =
      .began (.evaluate (.assign name value span)) m :: (parts m).2 := rfl
  have hmachine : ((Recorder.ofRoom limits (room + 1)).evaluate
      (.assign name value span) m).1.machine = (parts m).1.machine :=
    Eval.machine_locating span (fun m => (parts m).1) m
  have hvalue := hR.evaluate (e := value) trivial m hm
  cases ho : ((Recorder.ofRoom limits room).evaluate value m).1 with
  | stopped why n =>
      have hparts : parts m = _ := Recorded.bind_stopped ho
      rw [ho] at hvalue
      rw [hparts] at hjournal hmachine
      rw [hmachine]
      exact @Chronicle.of_parts limits (room + 1) (.evaluate _) _ _ _ hjournal hmachine hvalue
  | done v n =>
      have hparts : parts m = _ := Recorded.bind_done ho
      obtain ⟨hnotes, hlast⟩ : (store v n).2 = (Recorded.own (Eval.assign name v) n).2 ∧
          (store v n).1.machine = (Eval.assign name v n).machine :=
        Recorded.bind_trailing fun _ _ => ⟨rfl, rfl⟩
      have hcurrent := Evaluator.current_leaves limits room (.evaluate value) m
      rw [← Recorder.evaluator_ofRoom] at hcurrent
      have hn : (Recorder.ofRoom limits room).evaluator.leaves (.evaluate value) m = n :=
        congrArg Outcome.machine ho
      rw [ho] at hvalue
      rw [hparts, hnotes] at hjournal
      rw [hparts, hlast, Eval.machine_assign] at hmachine
      rw [hmachine, hjournal]
      refine .assign (hn ▸ hcurrent) hvalue fun e he => ?_
      exact Eval.machine_assign name v n ▸ Outcome.isNote_raised he

/-- An assignment to a field makes no difference to scopes. -/
theorem Recorder.Narrates.set
    (hR : (Recorder.ofRoom limits room).Narrates .anyCode (.ofChronicles limits))
    (object : Expr)
    (name : String)
    (value : Expr)
    (span : Span)
    (m : Machine) :
    (Narrative.ofChronicles limits inBlock).Covers m
      (Recorded.evaluateParts limits (.ofRoom limits room) (.set object name value span)) := by
  refine .locating span (.bind (hR.evaluate trivial m) fun o n => ?_)
  cases o with
  | «instance» id =>
      exact .bind (hR.evaluate trivial n) fun v n =>
        .bind (.own fun _ => .of_eq rfl rfl rfl) fun _ _ => .pure _
  | nil | boolean | number | string | function | native | «class» | list | map => exact .fail _

/-- **Chronicles.** The answers of the recorder for any room have chronicles. -/
theorem Recorder.chronicled_ofRoom (limits : Limits) (room : Nat) :
    (Recorder.ofRoom limits room).Narrates .anyCode (.ofChronicles limits) := by
  induction room with
  | zero =>
      exact
        { evaluate := fun _ _ => .stop trivial
          execute := fun _ _ => .stop trivial
          run := fun _ _ => .stop trivial }
  | succ room ih =>
      constructor
      · intro inBlock e _ m
        have answer
            (h : (Narrative.ofChronicles limits inBlock).Covers m
              (Recorded.evaluateParts limits (.ofRoom limits room) e)) :
            (Narrative.ofChronicles limits inBlock).Covers m
              ((Recorder.ofRoom limits (room + 1)).evaluate e) :=
          fun hm => @Chronicle.of_parts limits (room + 1) (.evaluate e) _ _ _ rfl rfl (h hm)
        have hcall (frame : Frame) (callee : Value) (arguments : List Value) (m : Machine) :
            (Narrative.ofChronicles limits inBlock).Covers m
              (Recorded.inCall frame (Recorded.invoke (.ofRoom limits room) callee arguments)) :=
          (Recorded.Called.invoke ih arguments callee (m.pushFrame frame)).inCall
        cases e with
        | assign name value span => exact ih.assign name value span m
        | set object name value span => exact answer (ih.set object name value span m)
        | literal | reference | binary | unary | logical | conditional | call | get | this | super
        | list | map | index | indexSet | function =>
            exact answer (Narration.evaluateParts ih hcall trivial id m)
      · intro inBlock s hs m hm
        have hparts := (Narration.executeParts ih hs m).settle limits.catchFaults s hm
        exact @Chronicle.of_parts limits (room + 1) (.execute s) _ _ _ rfl rfl hparts
      · intro inBlock body hbody m hm
        have hparts := Narration.executeAll ih (Discipline.anyCode.body_stmts hbody) m hm
        exact @Chronicle.of_parts limits (room + 1) (.run body) _ _ _ rfl rfl hparts

end Rooms

end Lox
