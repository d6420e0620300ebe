import Lox.Proofs.Entering
import Lox.Proofs.Invariance
import Lox.Proofs.Kept
import Lox.Proofs.Visit

/-!
# Unwinding

Expressions, statements and calls end in the scope and among the calls in which they started,
however they end, and on all machines. The scopes from before are kept in the sense of
`Scopes.Kept`: only declarations bind names, and only in the scope that is current where they stand.
So a session is back in the global scope, outside of all calls, after every source that it runs.
-/

namespace Lox

/-- Where code runs, as far as its declarations are concerned. -/
inductive Region
  /-- In a scope made for it. -/
  | own
  /-- In a scope from before, in which it may declare these names. -/
  | shared (names : String → Prop)

namespace Region

/-- The names that code in the region may declare. -/
def allows : Region → String → Prop
  | own, _ => True
  | shared names, name => names name

/-- Code is restricted to the declarations that its region allows. -/
def discipline : Discipline where
  Setting := Region
  runs _ := True
  expr _ _ := True
  stmt k s := ∀ name, s.Declares name → k.allows name
  body k statements := ∀ s ∈ statements, ∀ name, s.Declares name → k.allows name
  binds _ _ := True
  breaks _ := True
  returns _ := True
  block _ := own
  loop k := k
  runs_expr _ := trivial
  runs_stmt _ := trivial
  body_stmts h := h
  runs_block _ := trivial
  block_block _ := rfl
  expr_block _ := trivial
  expr_parts _ _ _ := trivial
  stmt_expressions _ _ _ := trivial
  stmt_branches h _ ht _ hname := h _ (.branch ht hname)
  stmt_inner _ _ _ _ _ := trivial
  stmt_loopBody _ _ _ _ _ := trivial
  stmt_handlerNames _ _ _ := trivial
  stmt_break _ := trivial
  stmt_continue _ := trivial
  stmt_return _ := trivial
  breaks_block _ := trivial
  returns_block _ := trivial
  returns_loop _ := trivial

end Region

/-- What there was when code started, and the scope in which it runs. -/
structure Surroundings where
  scopes : Scopes
  frames : List Frame
  scope : ScopeId

namespace Surroundings

/-- The surroundings of code that starts on a machine. -/
def start (m : Machine) : Surroundings :=
  ⟨m.scopes, m.frames, m.current⟩

/-- The machine has kept the surroundings. -/
structure Intact (k : Region) (p : Surroundings) (m : Machine) : Prop where
  current : m.current = p.scope
  frames : m.frames = p.frames
  scopes : p.scopes.Kept (fun id name => id = p.scope ∧ k.allows name) m.scopes
  /-- The scope of its own in which code may run was not there before. -/
  fresh : k = .own → p.scopes.all.size ≤ p.scope

theorem intact_start (k : Region) (m : Machine) (h : k ≠ .own) : (start m).Intact k m :=
  ⟨rfl, rfl, .refl _, fun hk => absurd hk h⟩

/-- A scope that was entered is one's own. -/
theorem intact_enter (m : Machine) (parent : ScopeId) (bindings : List Binding) :
    Intact .own ⟨m.scopes, m.frames, m.scopes.all.size⟩ (m.enter parent bindings) := by
  rw [Machine.enter_eq]
  exact ⟨rfl, rfl, .create _ _, fun _ => Nat.le_refl _⟩

theorem intact_enter_bindThis
    (m : Machine)
    (scope : ScopeId)
    (receiver : InstanceId)
    (parent : ScopeId)
    (bindings : List Binding) :
    Intact .own ⟨m.scopes, m.frames, m.scopes.all.size + 1⟩
      ((m.bindThis scope receiver).enter parent bindings) := by
  rw [Machine.enter_eq, Machine.bindThis_eq]
  refine ⟨by simp, rfl, ?_, fun _ => Nat.le_succ _⟩
  exact (Scopes.Kept.create _ _).trans (.create _ _)

/-- When code in a scope of its own has ended, what was around is as it was. -/
theorem Intact.leave
    {k : Region} {p q : Surroundings} {m n : Machine}
    (hm : p.Intact k m)
    (hn : q.Intact .own n)
    (hscopes : q.scopes = m.scopes)
    (hframes : q.frames = m.frames) :
    p.Intact k (n.leave m.current) where
  current := hm.current
  frames := hn.frames.trans (hframes.trans hm.frames)
  scopes := by
    -- the scope of the code that has ended was not there before
    have hkept : q.scopes.Kept (fun id name => id = p.scope ∧ k.allows name) n.scopes :=
      hn.scopes.mono fun id hid name h => absurd (hn.fresh rfl) (Nat.not_le_of_lt (h.1 ▸ hid))
    exact hm.scopes.trans (hscopes ▸ hkept)
  fresh := hm.fresh

/-- The surroundings of running code stay intact. -/
def invariance : Invariance Region.discipline where
  Place := Surroundings
  scope p := p.scope
  holds k p m := p.Intact k m
  beside p q := q.scopes = p.scopes ∧ q.frames = p.frames

theorem laws : invariance.Laws where
  beside_refl _ := ⟨rfl, rfl⟩
  beside_trans h h' := ⟨h'.1.trans h.1, h'.2.trans h.2⟩
  current _ h := h.current
  quiet h hq :=
    ⟨hq.current.trans h.current, hq.frames.trans h.frames, hq.scopes ▸ h.scopes, h.fresh⟩
  loop := Iff.rfl
  enter {k p m bindings} _ hm _ :=
    ⟨_, intact_enter m m.current bindings, fun _ _ hr hn => hm.leave hn hr.1 hr.2⟩
  copy {k p m} _ hm := by
    refine ⟨⟨p.scopes, p.frames, m.scopes.all.size⟩, ⟨rfl, rfl⟩, rfl, hm.frames, ?_,
      fun _ => hm.scopes.size_le⟩
    have hkept : p.scopes.Kept (fun id _ => id = m.scopes.all.size ∧ True) m.scopes :=
      hm.scopes.mono fun id hid name h => absurd (hm.fresh rfl) (Nat.not_le_of_lt (h.1 ▸ hid))
    exact hkept.trans (.create _ _)
  call {k p m} frame hm := by
    refine ⟨⟨p.scopes, frame :: p.frames, p.scope⟩, ?_, fun n hn => ?_⟩
    · exact ⟨hm.current, congrArg _ hm.frames, hm.scopes, hm.fresh⟩
    · exact ⟨hn.current, by simp [Machine.popFrame, hn.frames], hn.scopes, hn.fresh⟩
  closure {k p m id name params body scope} arguments hm _ :=
    ⟨.own, _, fun _ _ _ _ => trivial, intact_enter m scope _,
      fun _ _ hr hn => hm.leave hn hr.1 hr.2⟩
  methodBody {k p m id f} receiver arguments hm _ :=
    ⟨.own, _, fun _ _ _ _ => trivial, intact_enter_bindThis m f.scope receiver _ _,
      fun _ _ hr hn => hm.leave hn hr.1 hr.2⟩
  assign v _ hm := ⟨hm.current, hm.frames, hm.scopes.trans (.assign _ _ _ v), hm.fresh⟩
  newClosure _ hm := ⟨hm.current, hm.frames, hm.scopes, hm.fresh⟩
  newFunction _ hm := ⟨hm.current, hm.frames, hm.scopes, hm.fresh⟩
  define {k p m s name} v isConst hs hname hm := by
    refine ⟨hm.current, hm.frames, hm.scopes.trans ?_, hm.fresh⟩
    exact .define _ ⟨hm.current, hs name (.here hname)⟩

theorem keptByClassSteps : invariance.KeptByClassSteps where
  bindSuper superclass _ hm := by
    rw [Machine.bindSuper_eq]
    exact ⟨hm.current, hm.frames, hm.scopes.trans (.create _ _), hm.fresh⟩
  newMethod _ _ _ _ _ hm := ⟨hm.current, hm.frames, hm.scopes, hm.fresh⟩
  newClass _ _ hm := ⟨hm.current, hm.frames, hm.scopes, hm.fresh⟩

theorem lawful : invariance.Lawful :=
  ⟨laws, laws.defineClass keptByClassSteps⟩

section Code

open Eval

variable (limits : Limits) (room : Nat)
variable {k : Region} {p : Surroundings} {m : Machine}

theorem Intact.evaluate (e : Expr) (hm : p.Intact k m) :
    p.Intact k ((Evaluator.ofRoom limits room).evaluate e m).machine :=
  ((lawful.simulation.ofRoom limits room).evaluate (k := k) (e := e) trivial m m
    ⟨rfl, hm⟩).machine_related.2

theorem Intact.execute
    {s : Stmt}
    (hm : p.Intact k m)
    (hs : ∀ name, s.Declares name → k.allows name) :
    p.Intact k ((Evaluator.ofRoom limits room).execute s m).machine :=
  ((lawful.simulation.ofRoom limits room).execute (k := k) hs m m ⟨rfl, hm⟩).machine_related.2

theorem Intact.callValue
    (callee : Value)
    (arguments : List Value)
    (site : Option Span)
    (hm : p.Intact k m) :
    p.Intact k (callValue limits (.ofRoom limits room) callee arguments site m).machine :=
  (Simulation.callValue_keeps (S := invariance.simulation) limits lawful.simulation
    (lawful.simulation.ofRoom limits room) trivial (fun _ _ => trivial) m m
    ⟨rfl, hm⟩).machine_related.2

end Code

end Surroundings

/-- The session after running sources one after another. Each comes with its path and with the
choice whether the values of its expression statements are printed. -/
def Session.after (s : Session) (inputs : List (String × String × Bool)) : Session :=
  inputs.foldl (fun s input => (s.run input.1 input.2.1 input.2.2).2) s

/-- What accepted programs keep when they run, and what has nothing to do with the output, is kept
by sessions. -/
theorem Session.machine_after
    {P : Machine → Prop}
    (hrun : ∀ {file text collectAll program}, Program.ofText file text collectAll = .ok program →
      ∀ limits echo m, P m → P (program.run limits echo m).2)
    (houtput : ∀ m, P m → P m.takeOutput.2)
    (inputs : List (String × String × Bool))
    (s : Session)
    (hs : P s.machine) :
    P (s.after inputs).machine := by
  induction inputs generalizing s with
  | nil => exact hs
  | cons input rest ih =>
      have hfirst : P (s.run input.1 input.2.1 input.2.2).2.machine := by
        unfold Session.run
        split
        split
        · exact hs
        · next program hprogram => exact houtput _ (hrun hprogram s.limits input.2.2 _ hs)
      exact ih _ hfirst

namespace Machine

/-- Outside of all calls, in the global scope. -/
def AtTop (m : Machine) : Prop :=
  m.frames = [] ∧ m.current = globalScope

theorem atTop_initial (clock : Nat → Float) : (initial clock).AtTop :=
  ⟨rfl, rfl⟩

theorem atTop_reset (m : Machine) : m.reset.AtTop :=
  ⟨rfl, rfl⟩

end Machine

section Sessions

open Surroundings

/-- A run leaves the machine of its statements behind, or resets it if it is given up. -/
theorem Program.run_machine (program : Program) (limits : Limits) (echo : Bool) (m : Machine) :
    let n := (Eval.runStatements (.ofRoom limits (Evaluator.roomFor limits.maxCallDepth)) echo
      program.statements m).machine
    (program.run limits echo m).2 = n ∨ (program.run limits echo m).2 = n.reset := by
  simp only [Program.run]
  split
  all_goals
    next h =>
      rw [h]
      first
      | exact .inl rfl
      | exact .inr rfl

/-- The statements of a program leave the machine at the top. -/
theorem Program.atTop_statements
    (program : Program)
    (limits : Limits)
    (echo : Bool)
    {m : Machine}
    (hm : m.AtTop) :
    (Eval.runStatements (.ofRoom limits (Evaluator.roomFor limits.maxCallDepth)) echo
      program.statements m).machine.AtTop := by
  have hstart : (start m).Intact (.shared fun _ => True) m := intact_start _ m (by simp)
  have hall : ∀ s ∈ program.statements, Region.discipline.stmt (.shared fun _ => True) s :=
    fun _ _ _ _ => trivial
  have hintact := lawful.runStatements_holds limits (Evaluator.roomFor limits.maxCallDepth) echo
    hall hstart
  exact ⟨hintact.frames.trans hm.1, hintact.current.trans hm.2⟩

/-- A run leaves the machine at the top, also one that is given up. -/
theorem Program.atTop_run
    (program : Program)
    (limits : Limits)
    (echo : Bool)
    {m : Machine}
    (hm : m.AtTop) :
    (program.run limits echo m).2.AtTop := by
  have hend := program.atTop_statements limits echo hm
  rcases program.run_machine limits echo m with h | h
  · exact h ▸ hend
  · exact h ▸ Machine.atTop_reset _

theorem Session.options_run (s : Session) (source path : String) (echo : Bool) :
    (s.run source path echo).2.options = s.options := by
  unfold Session.run
  split
  split <;> rfl

theorem Session.options_after (inputs : List (String × String × Bool)) (s : Session) :
    (s.after inputs).options = s.options := by
  induction inputs generalizing s with
  | nil => rfl
  | cons input rest ih => exact (ih _).trans (s.options_run input.1 input.2.1 input.2.2)

theorem Session.atTop_after
    (inputs : List (String × String × Bool))
    (s : Session)
    (hs : s.machine.AtTop) :
    (s.after inputs).machine.AtTop :=
  s.machine_after (fun _ limits echo _ hm => Program.atTop_run _ limits echo hm) (fun _ hm => hm)
    inputs hs

end Sessions

/-- **Unwinding.** The scope and the active calls are the same after evaluating an expression,
executing a statement or calling a value, whichever way that ends. After each source of a session
there is no active call, and the global scope is current. -/
theorem scope_and_calls_restored :
    (∀ (limits : Limits) (room : Nat) (m : Machine),
      (∀ e : Expr,
        let n := ((Evaluator.ofRoom limits room).evaluate e m).machine
        n.current = m.current ∧ n.frames = m.frames) ∧
      (∀ s : Stmt,
        let n := ((Evaluator.ofRoom limits room).execute s m).machine
        n.current = m.current ∧ n.frames = m.frames) ∧
      (∀ (callee : Value) (arguments : List Value) (site : Option Span),
        let n := (Eval.callValue limits (.ofRoom limits room) callee arguments site m).machine
        n.current = m.current ∧ n.frames = m.frames)) ∧
    (∀ (options : Options) (fuel : Nat) (terminal : Bool) (sources : SourceMap)
        (clock : Nat → Float) (inputs : List (String × String × Bool)),
      let m := ((Session.new options fuel terminal sources clock).after inputs).machine
      m.frames = [] ∧ m.current = Machine.globalScope) := by
  refine ⟨fun limits room m => ?_, fun options fuel terminal sources clock inputs => ?_⟩
  · -- any name may be declared
    have hm := Surroundings.intact_start (.shared fun _ => True) m (by simp)
    refine ⟨fun e => ?_, fun s => ?_, fun callee arguments site => ?_⟩
    · have hn := hm.evaluate limits room e
      exact ⟨hn.current, hn.frames⟩
    · have hn := hm.execute limits room (s := s) (by simp [Region.allows])
      exact ⟨hn.current, hn.frames⟩
    · have hn := hm.callValue limits room callee arguments site
      exact ⟨hn.current, hn.frames⟩
  · exact Session.atTop_after inputs _ (Machine.atTop_initial clock)

end Lox
