import Lox.Proofs.Parse.Program
import Lox.Proofs.Soundness
import Lox.Proofs.Unwinding

/-!
# The checks of the parser are enough

The parser rejects misplaced `return`, `break`, `continue`, `this` and `super`. In the runs of the
programs that it accepts no signal of such a statement gets out of the construct it belongs to,
and `this` and `super` are bound wherever they are evaluated.
-/

namespace Lox

/-- A session may run its next program on the machine. -/
structure Machine.Ready (m : Machine) : Prop where
  sound : m.Sound
  atTop : m.AtTop
  inRange : globalScope < m.scopes.all.size

namespace Machine.Ready

theorem initial (clock : Nat → Float) : (Machine.initial clock).Ready :=
  ⟨sound_initial clock, atTop_initial clock, Nat.one_lt_two⟩

theorem takeOutput {m : Machine} (h : m.Ready) : m.takeOutput.2.Ready :=
  ⟨⟨h.sound.scopes, h.sound.functions, h.sound.methods⟩, h.atTop, h.inRange⟩

/-- The place where the statements of a program run. -/
theorem suits {m : Machine} (h : m.Ready) :
    Standpoint.Suits .outermost ⟨m.scopes, globalScope⟩ m where
  current := h.atTop.2
  inRange := h.inRange
  sound := h.sound
  kept := .refl _
  serves := ⟨nofun, nofun⟩

end Machine.Ready

section Sessions

open Standpoint

theorem Program.ready_run
    {program : Program}
    (hprogram : ∀ s ∈ program.statements, s.Placed .outermost)
    (limits : Limits)
    (echo : Bool)
    {m : Machine}
    (hm : m.Ready) :
    (program.run limits echo m).2.Ready := by
  have hend := lawful.runStatements_holds limits (Evaluator.roomFor limits.maxCallDepth) echo
    hprogram hm.suits
  have hsound := hend.sound
  have htop := program.atTop_run limits echo hm.atTop
  rcases program.run_machine limits echo m with h | h
  · rw [h] at htop ⊢
    exact ⟨hsound, htop, hend.inRange⟩
  · rw [h] at htop ⊢
    exact ⟨⟨hsound.scopes, hsound.functions, hsound.methods⟩, htop, hend.inRange⟩

/-- Sessions stay ready. -/
theorem Session.ready_after
    (inputs : List (String × String × Bool))
    (s : Session)
    (hs : s.machine.Ready) :
    (s.after inputs).machine.Ready :=
  s.machine_after
    (fun hprogram limits echo _ hm =>
      Program.ready_run (Program.placed_of_ofText hprogram) limits echo hm)
    (fun _ hm => hm.takeOutput) inputs hs

end Sessions

/-- The run of a program in a session comes to the question on the machine. -/
def Session.Visits
    (s : Session)
    (program : Program)
    (echo : Bool) :
    (room : Nat) → Question → Machine → Prop :=
  Lox.Visits s.limits (fun g => Eval.runStatements g echo program.statements s.machine)
    (Evaluator.roomFor s.limits.maxCallDepth)

/-- The run of a program in a session executes a statement of the program on the machine. -/
def Session.Executes
    (s : Session)
    (program : Program)
    (echo : Bool)
    (stmt : Stmt)
    (n : Machine) :
    Prop :=
  Asks (fun g => Eval.runStatements g echo program.statements s.machine)
    (.ofRoom s.limits (Evaluator.roomFor s.limits.maxCallDepth)) (.execute stmt) n

section Points

open Eval Standpoint

variable {k : Enclosure} {p : Standpoint} {m : Machine}

/-- The signal of a statement concerns a construct around it. -/
theorem signal_of_suits
    {limits : Limits} {room : Nat} {s : Stmt} {signal : Signal} {n : Machine}
    (hs : s.Placed k)
    (hm : p.Suits k m)
    (h : (Evaluator.ofRoom limits room).execute s m = .done signal n) :
    invariance.simulation.signal k signal :=
  ((lawful.simulation.ofRoom limits room).execute (k := k) hs m m ⟨rfl, hm⟩).holds_of_done h

theorem signal_of_run
    {limits : Limits} {room : Nat} {body : List Stmt} {signal : Signal} {n : Machine}
    (hbody : Enclosure.discipline.body k body)
    (hm : p.Suits k m)
    (h : (Evaluator.ofRoom limits room).run body m = .done signal n) :
    invariance.simulation.signal k signal :=
  ((lawful.simulation.ofRoom limits room).run (k := k) hbody m m ⟨rfl, hm⟩).holds_of_done h

/-- A fault that is located is the same fault. -/
theorem fault_of_locating
    {α : Type} {c : Eval α} {span : Span} {f : Failure} {n : Machine}
    (h : locating span c m = .stopped (.failed f) n) :
    ∃ f', c m = .stopped (.failed f') n ∧ f'.fault = f.fault := by
  unfold locating at h
  split at h
  · next f' n' hc =>
      cases h
      refine ⟨f', hc, ?_⟩
      unfold Failure.locate
      split <;> rfl
  · next hne => exact absurd h (hne f n)

/-- Where `this` is bound, its evaluation does not fail. -/
theorem evaluate_this_ne_failed
    {limits : Limits} {room : Nat} {span : Span} {receiver : InstanceId} {f : Failure} {n : Machine}
    (hthis : m.scopes.value m.current "this" = .ok (.instance receiver)) :
    (Evaluator.ofRoom limits room).evaluate (.this span) m ≠ .stopped (.failed f) n := by
  intro h
  cases room with
  | zero => cases h
  | succ room =>
      obtain ⟨f', hfailed, -⟩ := fault_of_locating (c := lookup "this") h
      simp only [lookup, hthis, Eval.ofExcept] at hfailed
      cases hfailed

/-- Where `this` and `super` are bound, the class that `super` stands for is searched for the
method, which is bound to the instance that `this` stands for. -/
theorem evaluate_super_eq
    {receiver : InstanceId} {superclass : ClassId}
    (hthis : m.scopes.value m.current "this" = .ok (.instance receiver))
    (hsuper : m.scopes.value m.current "super" = .ok (.class superclass))
    (limits : Limits)
    (room : Nat)
    (method : String)
    (span : Span) :
    (Evaluator.ofRoom limits (room + 1)).evaluate (.super method span) m =
      match m.findMethod? superclass method with
      | some id => .done (.function m.functions.size) (m.newFunction (.bound receiver id)).2
      | none =>
          let fault := Fault.undefinedSuperMethod method
          .stopped (.failed ⟨fault, some (span, fault.message), []⟩) m := by
  have hlookup (name : String) (v : Value) (hv : m.scopes.value m.current name = .ok v) :
      lookup name m = .done v m := by
    simp only [lookup, hv, Eval.ofExcept]
    rfl
  have hlocating : (Evaluator.ofRoom limits (room + 1)).evaluate (.super method span) m =
      locating span (evaluateSuper method) m :=
    rfl
  rw [hlocating]
  simp only [locating, evaluateSuper, bind_apply, hlookup _ _ hsuper, hlookup _ _ hthis,
    Outcome.andThen, ask]
  cases m.findMethod? superclass method <;> rfl

/-- Where `this` and `super` are bound, only the method can be missing. -/
theorem evaluate_super_fault
    {limits : Limits} {room : Nat} {method : String} {span : Span} {receiver : InstanceId}
    {superclass : ClassId} {f : Failure} {n : Machine}
    (hthis : m.scopes.value m.current "this" = .ok (.instance receiver))
    (hsuper : m.scopes.value m.current "super" = .ok (.class superclass))
    (h : (Evaluator.ofRoom limits room).evaluate (.super method span) m = .stopped (.failed f) n) :
    f.fault = .undefinedSuperMethod method := by
  cases room with
  | zero => cases h
  | succ room =>
      rw [evaluate_super_eq hthis hsuper] at h
      split at h <;> cases h
      rfl

end Points

/-- **The checks of the parser are enough.** For every program that is accepted in a session,
after any sources and with any options: no statement of the program itself ends with a signal that
belongs inside a loop or function; no function body ends with a signal that belongs inside a loop;
and wherever the run evaluates `this` or `super`, `this` is bound to an instance and `super` to a
class, so that they are never undefined variables. -/
theorem static_checks_sound
    (options : Options)
    (fuel : Nat)
    (terminal : Bool)
    (sources : SourceMap)
    (clock : Nat → Float)
    (inputs : List (String × String × Bool))
    (file : Nat)
    (text : List Char)
    (program : Program)
    (echo : Bool)
    (hprogram : Program.ofText file text options.collectAll = .ok program) :
    let s := (Session.new options fuel terminal sources clock).after inputs
    let top := Evaluator.roomFor s.limits.maxCallDepth
    (∀ stmt n, s.Executes program echo stmt n →
      ∀ signal n', (Evaluator.ofRoom s.limits top).execute stmt n = .done signal n' →
        signal = .normal ∨ ∃ t, signal = .thrown t) ∧
    (∀ room body n, s.Visits program echo room (.run body) n →
      ∀ signal n', (Evaluator.ofRoom s.limits room).run body n = .done signal n' →
        signal ≠ .broke ∧ signal ≠ .continued) ∧
    (∀ room span n, s.Visits program echo room (.evaluate (.this span)) n →
      (∃ receiver, n.scopes.value n.current "this" = .ok (.instance receiver)) ∧
      ∀ f n', (Evaluator.ofRoom s.limits room).evaluate (.this span) n = .stopped (.failed f) n' →
        ∀ name, f.fault ≠ .undefinedVariable name) ∧
    (∀ room method span n, s.Visits program echo room (.evaluate (.super method span)) n →
      (∃ receiver, n.scopes.value n.current "this" = .ok (.instance receiver)) ∧
      (∃ superclass, n.scopes.value n.current "super" = .ok (.class superclass)) ∧
      ∀ f n',
        (Evaluator.ofRoom s.limits room).evaluate (.super method span) n = .stopped (.failed f) n' →
        ∀ name, f.fault ≠ .undefinedVariable name) := by
  intro s top
  have hplaced := Program.placed_of_ofText hprogram
  have hready : s.machine.Ready := Session.ready_after inputs _ (.initial clock)
  have hvisits {room : Nat} {q : Question} {n : Machine} (h : s.Visits program echo room q n) :=
    Standpoint.lawful.visits hplaced hready.suits h
  refine ⟨fun stmt n hexecutes signal n' hdone => ?_, fun room body n hvisit signal n' hdone => ?_,
    fun room span n hvisit => ?_, fun room method span n hvisit => ?_⟩
  · obtain ⟨t, ht, hq, hn⟩ := Standpoint.lawful.asks_runStatements hplaced hready.suits hexecutes
    cases hq
    have hsignal := signal_of_suits (hplaced _ ht) hn hdone
    cases signal with
    | normal => exact .inl rfl
    | thrown t => exact .inr ⟨t, rfl⟩
    | returned v => cases hsignal.1
    | broke => cases hsignal
    | continued => cases hsignal
  · obtain ⟨l, r, hbody, hn⟩ := hvisits hvisit
    have hsignal := signal_of_run hbody hn hdone
    constructor
    · rintro rfl
      exact absurd hsignal (by simp [Simulation.signal, Enclosure.discipline, hbody.2.1])
    · rintro rfl
      exact absurd hsignal (by simp [Simulation.signal, Enclosure.discipline, hbody.2.1])
  · obtain ⟨l, r, hthis, hn⟩ := hvisits hvisit
    obtain ⟨receiver, hvalue⟩ :=
      hn.sound.scopes.value_this (hn.current ▸ hn.serves.this hthis.allowed.2)
    exact ⟨⟨receiver, hvalue⟩, fun f n' h => absurd h (evaluate_this_ne_failed hvalue)⟩
  · obtain ⟨l, r, hsuper, hn⟩ := hvisits hvisit
    have hclass : l.classHasSuperclass = some true := hsuper.allowed.2
    obtain ⟨receiver, hreceiver⟩ :=
      hn.sound.scopes.value_this (hn.current ▸ hn.serves.this (by simp [hclass]))
    obtain ⟨superclass, hsuperclass⟩ :=
      hn.sound.scopes.value_super (hn.current ▸ hn.serves.super hclass)
    refine ⟨⟨receiver, hreceiver⟩, ⟨superclass, hsuperclass⟩, fun f n' h name => ?_⟩
    rw [evaluate_super_fault hreceiver hsuperclass h]
    nofun

theorem static_checks_sound_class :
    let source := "class A { init() { this.x = 1; } } print A().x;"
    ∃ program, Program.ofText 0 source.toList true = .ok program ∧
      ∀ room span n,
        ((Session.new .default 100 false (.empty "" false) fun _ => 0).after []).Visits program
          false room (.evaluate (.this span)) n →
        ∃ receiver, n.scopes.value n.current "this" = .ok (.instance receiver) := by
  intro source
  obtain ⟨program, hprogram⟩ : ∃ program, Program.ofText 0 source.toList true = .ok program :=
    Program.exists_of_isOk (by decide +kernel)
  obtain ⟨-, -, hthis, -⟩ := static_checks_sound .default 100 false (.empty "" false)
    (fun _ => 0) [] 0 source.toList program false hprogram
  exact ⟨program, hprogram, fun room span n hvisit => (hthis room span n hvisit).1⟩

end Lox
