import Lox.Proofs.Congruence
import Lox.Proofs.Journal.Accounts

/-!
# Runs in lockstep

The same code is run under two sets of limits. A `Relaxation` says how the limits differ, and which
faults excuse a difference: once one of them is raised in the run under the tighter limits, nothing
is claimed. `Relaxation.Follows` says of two computations that they do the same from the same
machine unless the first one ends with an excused fault. It is a congruence: nothing in the language
recovers from an excused fault, so it is passed on by all the ways in which computations are built.
So evaluators with enough room are in lockstep (`Relaxation.Matches.ofRoom`), and the runs of a
program end the same way unless the first one ends with an excused fault (`Relaxation.run_cases`).
-/

namespace Lox

/-- How the limits of two runs differ, on which machines the runs are compared, and which faults
excuse a difference. -/
structure Relaxation where
  tight : Limits
  loose : Limits
  excused : Fault → Prop
  admits : Machine → Prop
  fuel_eq : tight.fuel = loose.fuel
  depth_le : tight.maxCallDepth ≤ loose.maxCallDepth
  /-- Different depths are excused by the faults that the lesser one leads to. -/
  depth_excused : tight.maxCallDepth = loose.maxCallDepth ∨
    ∀ fault : Fault, fault.kind = .stackOverflow → excused fault
  /-- The tighter limits do not let an excused fault be caught. -/
  uncaught : ∀ {fault : Fault}, excused fault →
    (tight.catchFaults && fault.kind != .stackOverflow) = false
  caught_eq : ∀ {fault : Fault}, ¬excused fault →
    (tight.catchFaults && fault.kind != .stackOverflow) =
      (loose.catchFaults && fault.kind != .stackOverflow)
  admits_of_frames : ∀ {m n : Machine}, admits m → n.frames = m.frames → admits n
  admits_pushFrame : ∀ {m : Machine} (frame : Frame),
    admits m → m.frames.length < tight.maxCallDepth → admits (m.pushFrame frame)
  admits_popFrame : ∀ {m : Machine}, admits m → admits m.popFrame

theorem Outcome.fault?_onMachine
    {α : Type}
    (o : Outcome α)
    (change : Machine → Machine) :
    (o.onMachine change).fault? = o.fault? := by
  cases o with
  | done a m => rfl
  | stopped why m => cases why <;> rfl

namespace Relaxation

variable (X : Relaxation) {α β : Type}

/-- The computation ends with an excused fault. -/
def Excuses (o : Outcome α) : Prop :=
  ∃ fault, o.fault? = some fault ∧ X.excused fault

/-- The computations do the same, unless the first one ends with an excused fault. -/
def Follows (c c' : Eval α) : Prop :=
  ∀ m, X.admits m → X.Excuses (c m) ∨ (c m = c' m ∧ X.admits (c m).machine)

variable {X}

theorem Excuses.stopped
    {why : Interruption}
    {m : Machine}
    (h : X.Excuses (.stopped why m : Outcome α)) :
    X.Excuses (.stopped why m : Outcome β) := by
  obtain ⟨fault, hfault, hexcused⟩ := h
  refine ⟨fault, ?_, hexcused⟩
  cases why with
  | failed f => exact hfault
  | exhausted => exact hfault
  | thrown t => cases hfault
  | outOfFuel => cases hfault

namespace Follows

section Rules

/-- A computation that ends among the same calls follows itself if no code of the program is run. -/
theorem own {c : Eval α} (h : ∀ m, (c m).machine.frames = m.frames) : X.Follows c c :=
  fun m hm => .inr ⟨rfl, X.admits_of_frames hm (h m)⟩

theorem bind
    {c c' : Eval α}
    {f f' : α → Eval β}
    (hc : X.Follows c c')
    (hf : ∀ a, X.Follows (f a) (f' a)) :
    X.Follows (c >>= f) (c' >>= f') := by
  intro m hm
  rw [Eval.bind_apply, Eval.bind_apply]
  rcases hc m hm with hexcused | ⟨heq, hn⟩
  · cases ho : c m with
    | done a n =>
        rw [ho] at hexcused
        obtain ⟨fault, hfault, -⟩ := hexcused
        cases hfault
    | stopped why n =>
        rw [ho] at hexcused
        exact .inl hexcused.stopped
  · rw [← heq]
    cases ho : c m with
    | done a n =>
        rw [ho] at hn
        exact hf a n hn
    | stopped why n =>
        rw [ho] at hn
        exact .inr ⟨rfl, hn⟩

/-- A change of the machine on the way out. -/
theorem around
    {c c' : Eval α}
    {m : Machine}
    (outward : Machine → Machine)
    (hc : X.Follows c c')
    (hm : X.admits m)
    (hout : ∀ n, X.admits n → X.admits (outward n)) :
    let o := (c m).onMachine outward
    X.Excuses o ∨ (o = (c' m).onMachine outward ∧ X.admits o.machine) := by
  intro o
  rcases hc m hm with ⟨fault, hfault, hexcused⟩ | ⟨heq, hn⟩
  · exact .inl ⟨fault, (Outcome.fault?_onMachine _ _).trans hfault, hexcused⟩
  · refine .inr ⟨by simp only [o, heq], ?_⟩
    rw [Outcome.machine_onMachine]
    exact hout _ hn

theorem inNewScope
    {c c' : Eval α}
    (hc : X.Follows c c')
    (parent : ScopeId)
    (bindings : List Binding) :
    X.Follows (Eval.inNewScope parent bindings c) (Eval.inNewScope parent bindings c') := by
  intro m hm
  have hframes : (m.enter parent bindings).frames = m.frames := by
    rw [Machine.enter_eq]
  rw [Eval.inNewScope_apply, Eval.inNewScope_apply]
  exact hc.around (·.leave m.current) (X.admits_of_frames hm hframes) fun n hn =>
    X.admits_of_frames hn rfl

/-- Below the tighter limit the call is entered in both runs, and above it the excused fault is
raised in the first one. -/
theorem enterCall {c c' : Eval α} (hc : X.Follows c c') (frame : Frame) :
    X.Follows
      (do
        if X.tight.maxCallDepth ≤ (← Eval.ask fun m => m.frames.length) then
          Eval.fail (.callDepth X.tight.maxCallDepth)
        else
          Eval.inCall frame c)
      (do
        if X.loose.maxCallDepth ≤ (← Eval.ask fun m => m.frames.length) then
          Eval.fail (.callDepth X.loose.maxCallDepth)
        else
          Eval.inCall frame c') := by
  intro m hm
  simp only [Eval.bind_apply, Eval.ask, Outcome.andThen]
  by_cases htight : X.tight.maxCallDepth ≤ m.frames.length
  · rw [if_pos htight]
    rcases X.depth_excused with heq | hexcused
    · rw [← heq, if_pos htight]
      exact .inr ⟨rfl, hm⟩
    · exact .inl ⟨_, rfl, hexcused _ rfl⟩
  · have hloose : ¬X.loose.maxCallDepth ≤ m.frames.length := by
      have := X.depth_le
      omega
    rw [if_neg htight, if_neg hloose, Eval.inCall_apply, Eval.inCall_apply]
    have hpushed := X.admits_pushFrame frame hm (Nat.lt_of_not_le htight)
    exact hc.around Machine.popFrame hpushed fun _ => X.admits_popFrame

theorem locating {c c' : Eval α} (hc : X.Follows c c') (span : Span) :
    X.Follows (Eval.locating span c) (Eval.locating span c') := by
  intro m hm
  unfold Eval.locating
  rcases hc m hm with ⟨fault, hfault, hexcused⟩ | ⟨heq, hn⟩
  · refine .inl ⟨fault, ?_, hexcused⟩
    split
    · next f n ho =>
        rw [ho] at hfault
        obtain heq : f.fault = fault := Option.some.inj hfault
        refine congrArg some (Eq.trans ?_ heq)
        unfold Failure.locate
        split <;> rfl
    · exact hfault
  · refine .inr ⟨by rw [heq], ?_⟩
    split
    · next ho =>
        rw [ho] at hn
        exact hn
    · exact hn

/-- The end of a statement: excused faults are not caught, and others are caught in both runs or in
neither. -/
theorem settle {c c' : Eval Signal} (hc : X.Follows c c') (span : Span) :
    X.Follows (Eval.settle X.tight.catchFaults span c)
      (Eval.settle X.loose.catchFaults span c') := by
  have hfault (f : Failure) (site : Span) (frames : List Frame) :
      ((f.locate span).attachTrace site frames).fault = f.fault :=
    (Failure.fault_attachTrace ..).trans (f.fault_locate span)
  intro m hm
  unfold Eval.settle
  rcases hc m hm with ⟨fault, ho, hexcused⟩ | ⟨heq, hn⟩
  · left
    cases hcm : c m with
    | done a n =>
        rw [hcm] at ho
        cases ho
    | stopped why n =>
        rw [hcm] at ho
        cases why with
        | thrown t => cases ho
        | outOfFuel => cases ho
        | exhausted => exact ⟨fault, ho, hexcused⟩
        | failed f =>
            obtain rfl : f.fault = fault := Option.some.inj ho
            simp only [hfault, X.uncaught hexcused]
            exact ⟨f.fault, congrArg some (hfault f _ _), hexcused⟩
  · rw [← heq]
    cases hcm : c m with
    | done a n =>
        rw [hcm] at hn
        exact .inr ⟨rfl, hn⟩
    | stopped why n =>
        rw [hcm] at hn
        cases why with
        | thrown t => exact .inr ⟨rfl, hn⟩
        | outOfFuel => exact .inr ⟨rfl, hn⟩
        | exhausted => exact .inr ⟨rfl, hn⟩
        | failed f =>
            simp only [hfault]
            by_cases hexcused : X.excused f.fault
            · left
              simp only [X.uncaught hexcused]
              exact ⟨f.fault, congrArg some (hfault f _ _), hexcused⟩
            · right
              rw [← X.caught_eq hexcused]
              split
              · exact ⟨rfl, hn⟩
              · exact ⟨rfl, hn⟩

end Rules

end Follows

variable (X) in
theorem congruence : Eval.Congruence X.tight X.loose X.Follows where
  fuel_eq := X.fuel_eq
  elementary hc := .own hc.steps
  throw _ := .own fun _ => rfl
  bind := .bind
  inNewScope parent bindings hc := hc.inNewScope parent bindings
  enterCall frame hc := hc.enterCall frame
  locating span hc := hc.locating span
  settle span hc := hc.settle span

variable (X) in
/-- The evaluators are in lockstep on all code. -/
abbrev Matches (g g' : Evaluator) : Prop :=
  Evaluator.Related X.Follows g g'

namespace Matches

variable {g g' : Evaluator}

/-- Evaluators that are tied from those in lockstep are in lockstep. -/
theorem deeper (hg : X.Matches g g') :
    X.Matches (Evaluator.deeper X.tight g) (Evaluator.deeper X.loose g') :=
  X.congruence.tie hg

/-- More room makes no difference where the lack of it is excused. -/
theorem ofRoom
    {room room' : Nat}
    (hroom : room = room' ∨ room ≤ room' ∧ X.excused .hostDepth) :
    X.Matches (.ofRoom X.tight room) (.ofRoom X.loose room') := by
  induction room generalizing room' with
  | zero =>
      rcases hroom with rfl | ⟨-, hexcused⟩
      · exact ⟨fun _ => .own fun _ => rfl, fun _ => .own fun _ => rfl, fun _ => .own fun _ => rfl⟩
      · have hfirst {α : Type} (c : Eval α) : X.Follows (Eval.stop .exhausted) c :=
          fun m _ => .inl ⟨.hostDepth, rfl, hexcused⟩
        exact ⟨fun _ => hfirst _, fun _ => hfirst _, fun _ => hfirst _⟩
  | succ room ih =>
      cases room' with
      | zero => omega
      | succ room' =>
          have hless : room = room' ∨ room ≤ room' ∧ X.excused .hostDepth :=
            hroom.imp Nat.succ.inj fun h => ⟨Nat.le_of_succ_le_succ h.1, h.2⟩
          exact (ih hless).deeper

end Matches

end Relaxation

/-- The fault that a run ends with, if it fails. -/
def Ending.fault? : Ending → Option Fault
  | failed f => some f.fault
  | completed | rejected _ | uncaught _ _ | unfinished => none

theorem Ending.eq_failed_of_fault?
    {ending : Ending}
    {fault : Fault}
    (h : ending.fault? = some fault) :
    ∃ f, ending = .failed f ∧ f.fault = fault := by
  cases ending with
  | failed f => exact ⟨f, rfl, Option.some.inj h⟩
  | completed | rejected | uncaught | unfinished => cases h

namespace Relaxation

open Eval

section Runs

/-- The run under the tighter limits ends with an excused fault, or the other run ends the same
way and leaves the same machine. -/
theorem run_cases
    (X : Relaxation)
    (program : Program)
    (echo : Bool)
    {m : Machine}
    (hm : X.admits m) :
    (∃ f, (program.run X.tight echo m).1 = .failed f ∧ X.excused f.fault) ∨
      program.run X.loose echo m = program.run X.tight echo m := by
  have hroom :
      Evaluator.roomFor X.tight.maxCallDepth = Evaluator.roomFor X.loose.maxCallDepth ∨
        Evaluator.roomFor X.tight.maxCallDepth ≤ Evaluator.roomFor X.loose.maxCallDepth ∧
          X.excused .hostDepth := by
    rcases X.depth_excused with heq | hexcused
    · exact .inl (congrArg Evaluator.roomFor heq)
    · refine .inr ⟨?_, hexcused _ rfl⟩
      have hle := X.depth_le
      simp only [Evaluator.roomFor]
      omega
  rcases X.congruence.runStatements (Matches.ofRoom hroom) echo program.statements m hm with
    ⟨fault, hfault, hexcused⟩ | ⟨heq, -⟩
  · left
    simp only [Program.run]
    cases ho : Eval.runStatements (.ofRoom X.tight (Evaluator.roomFor X.tight.maxCallDepth)) echo
        program.statements m with
    | done a n =>
        rw [ho] at hfault
        cases hfault
    | stopped why n =>
        rw [ho] at hfault
        cases why with
        | thrown t => cases hfault
        | outOfFuel => cases hfault
        | failed f =>
            cases hfault
            exact ⟨f, rfl, hexcused⟩
        | exhausted =>
            cases hfault
            exact ⟨_, rfl, hexcused⟩
  · right
    simp only [Program.run, heq]

end Runs

end Relaxation

end Lox
