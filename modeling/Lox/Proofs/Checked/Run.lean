import Lox.Proofs.Context
import Lox.Proofs.Grounded.Step
import Lox.Proofs.Unwinding
import Lox.Proofs.Visit

/-!
# Checks that never fail

Where `super` is evaluated, it is bound to a class and `this` to an instance, so the programs of a
session run with the checks of `Checks.lookups` as they do without. On a grounded machine, whatever
is called has as many parameters as its arity says, and every value that is computed leads to
objects, so `Checks.all` stops no run that `Checks.lookups` does not stop.
-/

namespace Lox

namespace Machine

namespace Grounded

variable {m : Machine} {held : List Ref} {arguments : List Value}

theorem methodAccepts
    {id : MethodId}
    (h : m.Grounded held)
    (hid : m.uses ⟨.methods, id⟩ = true)
    (harity : m.methodArity id = arguments.length) :
    m.methodAccepts id arguments = true := by
  obtain ⟨f, hf⟩ := exists_method hid
  have hscope : m.uses ⟨.scopes, f.scope⟩ = true := h.uses_of_method hf _ List.mem_cons_self
  simpa [Machine.methodAccepts, hf, hscope, methodArity] using harity

/-- Whatever is called with as many values as its arity says can be called with them. -/
theorem accepts
    {callee : Value}
    (h : m.Grounded held)
    (hcallee : callee.refs ⊆ held)
    (harity : Eval.arity? m callee = some arguments.length) :
    m.accepts callee arguments = true := by
  cases callee with
  | nil | boolean | number | string | «instance» | list | map => cases harity
  | function id =>
      obtain ⟨f, hf⟩ := exists_function (h.held _ (hcallee List.mem_cons_self))
      have hrefs := h.uses_of_function hf
      have harity : m.functionArity id = arguments.length := Option.some.inj harity
      cases f with
      | closure name params body scope =>
          have hscope : m.uses ⟨.scopes, scope⟩ = true := hrefs _ (by simp [Object.refs])
          simpa [Machine.accepts, hf, hscope, functionArity] using harity
      | bound receiver method =>
          have hreceiver : m.uses ⟨.instances, receiver⟩ = true := hrefs _ (by simp [Object.refs])
          have hmethod : m.uses ⟨.methods, method⟩ = true := hrefs _ (by simp [Object.refs])
          have harity : m.methodArity method = arguments.length := by
            simpa [functionArity, hf] using harity
          simp [Machine.accepts, hf, hreceiver, h.methodAccepts hmethod harity]
  | native id =>
      obtain ⟨f, hf⟩ := exists_native (h.held _ (hcallee List.mem_cons_self))
      have hrefs := h.uses_of_native hf
      have harity : arguments.length = f.arity := by simpa [Eval.arity?, hf] using harity.symm
      simp [Machine.accepts, hf, List.all_eq_true.mpr hrefs,
        NativeObject.accepts_of_arity harity]
  | «class» id =>
      have hclass : m.uses ⟨.classes, id⟩ = true := h.held _ (hcallee List.mem_cons_self)
      cases hinit : m.findMethod? id "init" with
      | none =>
          have harity : arguments = [] := by
            simpa [Eval.arity?, hinit, eq_comm] using harity
          simp [Machine.accepts, hclass, hinit, harity]
      | some method =>
          have harity : m.methodArity method = arguments.length := by
            simpa [Eval.arity?, hinit] using harity
          simp [Machine.accepts, hclass, hinit,
            h.methodAccepts (h.uses_of_findMethod? "init" hinit) harity]

end Grounded

end Machine

namespace Eval

namespace Mirrors

variable {uses : List Ref} {g' g : Evaluator}

/-- If a check stops a run for good, it stops it with all checks and with a few. -/
theorem insistBoth
    {α : Type} {parts : α → List Ref} {c' c : Eval α} {why : Interruption}
    (hwhy : why.IsFinal)
    (condition : Machine → Bool)
    (h : Mirrors uses parts c' c) :
    Mirrors uses parts (Eval.insist why condition >>= fun _ => c')
      (Eval.insist why condition >>= fun _ => c) := by
  suffices hinsist : Grounds uses (fun _ => []) (Eval.insist why condition) from
    bind hinsist fun _ => h
  refine own fun m held huses hm => ?_
  unfold Eval.insist
  split
  · exact hm
  · cases why with
    | thrown | failed => cases hwhy
    | exhausted | outOfFuel => exact hm

variable (hg : g'.Mirrors g)
include hg

theorem evaluateCall
    (why : Interruption)
    (limits : Limits)
    (callee : Expr)
    (arguments : List Expr)
    (span : Span) :
    Mirrors uses Value.refs (Eval.evaluateCall .all why limits g' callee arguments span)
      (Eval.evaluateCall .lookups why limits g callee arguments span) := by
  refine locating (bind (evaluate hg callee) fun f => bind (evaluateAll hg arguments) fun vs => ?_)
    span
  refine insist (fun m held huses hm => ?_) (callValue hg (by simp) (by simp) limits (some span))
  by_cases harity : arity? m f = some vs.length
  · have hf : f.refs ⊆ held := fun t ht => huses (by simp [ht])
    simp [Checks.all, harity, hm.accepts hf harity]
  · simp [Checks.all, harity]

theorem evaluateGuarded (why : Interruption) (limits : Limits) (e : Expr) :
    Mirrors uses Value.refs (Eval.evaluateGuarded .all why limits g' e)
      (Eval.evaluateGuarded .lookups why limits g e) := by
  cases e with
  | call callee arguments span => exact evaluateCall hg why limits callee arguments span
  | literal | reference | assign | binary | unary | logical | conditional | get | set | this
  | super | list | map | index | indexSet | function => exact evaluateStep hg limits _

theorem evaluateChecked {why : Interruption} (hwhy : why.IsFinal) (limits : Limits) (e : Expr) :
    Mirrors uses Value.refs (Eval.evaluateChecked .all why limits g' e)
      (Eval.evaluateChecked .lookups why limits g e) := by
  refine insistBoth hwhy _ (bind (evaluateGuarded hg why limits e) fun v => ?_)
  change Mirrors _ _ _ (Pure.pure v)
  refine insist (fun m held huses hm => ?_) (pure (by simp))
  have hv : m.Sees v := fun t ht => hm.held t (huses (List.mem_append_left _ ht))
  exact List.all_eq_true.mpr hv

/-- The statements of a program. -/
theorem runStatements (echo : Bool) (statements : List Stmt) :
    Mirrors uses (fun t => t.toList.flatMap (·.payload.refs))
      (Eval.runStatements g' echo statements) (Eval.runStatements g echo statements) := by
  induction statements generalizing uses with
  | nil => exact pure (by simp)
  | cons s rest ih =>
      have hecho {uses : List Ref} :
          Mirrors uses (fun t : Option Thrown => t.toList.flatMap (·.payload.refs))
            (if echo then Eval.echoValue s >>= fun _ => Eval.runStatements g' echo rest
              else Eval.runStatements g' echo rest)
            (if echo then Eval.echoValue s >>= fun _ => Eval.runStatements g echo rest
              else Eval.runStatements g echo rest) := by
        split
        · exact bind (echoValue s) fun _ => ih
        · exact ih
      refine bind (execute hg s) fun signal => ?_
      cases signal with
      | thrown t => exact pure (by simp)
      | normal => exact hecho
      | returned v => exact hecho
      | broke => exact hecho
      | continued => exact hecho

end Mirrors

end Eval

section Rooms

open Eval

variable (limits : Limits) (room : Nat)

theorem Evaluator.mirrors_ofRoom : (ofRoom limits room).Mirrors (ofRoom limits room) := by
  induction room with
  | zero =>
      exact
        { evaluate := fun _ => .stop trivial
          execute := fun _ => .stop trivial
          run := fun _ => .stop trivial }
  | succ room ih =>
      exact
        { evaluate := .evaluateStep ih limits
          execute := .executeStep ih limits
          run := .executeAll ih }

theorem Evaluator.mirrors_checked {why : Interruption} (hwhy : why.IsFinal) :
    (checked .all why limits room).Mirrors (checked .lookups why limits room) := by
  induction room with
  | zero => exact mirrors_ofRoom limits 0
  | succ room ih =>
      exact
        { evaluate := .evaluateChecked ih hwhy limits
          execute := .executeStep ih limits
          run := .executeAll ih }

end Rooms

namespace Program

variable {program : Program} {limits : Limits} {echo : Bool} {m : Machine} {held : List Ref}

/-- A program leaves the machine grounded. -/
theorem grounded_run (hm : m.Grounded [⟨.scopes, Machine.globalScope⟩]) :
    (program.run limits echo m).2.Grounded [⟨.scopes, Machine.globalScope⟩] := by
  have hg := Evaluator.mirrors_ofRoom limits (Evaluator.roomFor limits.maxCallDepth)
  have hend := (Eval.Mirrors.runStatements hg echo program.statements m _
    (List.nil_subset _) hm).2
  have hkept : Machine.Grounded _ [⟨.scopes, Machine.globalScope⟩] :=
    hend.mono fun t ht => hend.held t (List.mem_append_right _ ht)
  rcases program.run_machine limits echo m with h | h
  · rw [h]
    exact hkept
  · rw [h]
    exact (hkept.inScope (hkept.held _ List.mem_cons_self)).of_eq (fun _ => rfl) rfl rfl

/-- On a grounded machine, a program runs with all checks as it does with a few. -/
theorem checkedRun_all_eq
    {why : Interruption}
    (hwhy : why.IsFinal)
    (hm : m.Grounded held) :
    program.checkedRun .all why limits echo m = program.checkedRun .lookups why limits echo m := by
  have heq := (Eval.Mirrors.runStatements (Evaluator.mirrors_checked limits
    (Evaluator.roomFor limits.maxCallDepth) hwhy) echo program.statements m held
    (List.nil_subset _) hm).1
  simp only [checkedRun, runOn, heq]

end Program

section Lookups

open Eval

variable {why : Interruption} {limits : Limits} {g : Evaluator}

/-- With checks for `super` only, an expression is evaluated as without unless the first of them
fails. -/
theorem Eval.evaluateChecked_lookups_apply (e : Expr) (m : Machine) :
    evaluateChecked .lookups why limits g e m =
      if Checks.lookups.before e m then evaluateStep limits g e m else .stopped why m := by
  have hguarded : evaluateGuarded .lookups why limits g e = evaluateStep limits g e := by
    cases e <;> rfl
  have hafter (c : Eval Value) :
      (c >>= fun v => insist why (Checks.lookups.after v) >>= fun _ => Pure.pure v) m = c m := by
    rw [bind_apply]
    cases c m <;> rfl
  rw [evaluateChecked, bind_apply, insist, hguarded]
  split
  · exact hafter _
  · rfl

namespace Standpoint

variable {k : Enclosure} {p : Standpoint} {m : Machine}

/-- Where `super` may stand, it and `this` are bound. -/
theorem bindsSuper
    {method : String} {span : Span}
    (he : (Expr.super method span).Placed k)
    (hm : p.Suits k m) :
    m.bindsSuper = true := by
  have hclass : k.classHasSuperclass = some true := he.allowed.2
  obtain ⟨receiver, hreceiver⟩ :=
    hm.sound.scopes.value_this (hm.current ▸ hm.serves.this (by simp [hclass]))
  obtain ⟨superclass, hsuperclass⟩ :=
    hm.sound.scopes.value_super (hm.current ▸ hm.serves.super hclass)
  simp [Machine.bindsSuper, hreceiver, hsuperclass]

theorem evaluateChecked_keeps
    {g' : Evaluator} {e : Expr}
    (hg : invariance.simulation.Evaluates g' g)
    (he : e.Placed k) :
    invariance.simulation.Keeps k p invariance.simulation.value
      (evaluateChecked .lookups why limits g' e) (evaluateStep limits g e) := by
  rintro m _ ⟨rfl, hm⟩
  have hbefore : Checks.lookups.before e m = true := by
    cases e with
    | super method span => exact bindsSuper he hm
    | literal | reference | assign | binary | unary | logical | conditional | call | get | set
    | this | list | map | index | indexSet | function => rfl
  rw [evaluateChecked_lookups_apply, if_pos hbefore]
  exact Simulation.evaluateStep_keeps limits lawful.simulation hg he m m ⟨rfl, hm⟩

theorem evaluates_checked (why : Interruption) (limits : Limits) (room : Nat) :
    invariance.simulation.Evaluates (.checked .lookups why limits room)
      (.ofRoom limits room) := by
  induction room with
  | zero => exact lawful.simulation.ofRoom limits 0
  | succ room ih =>
      have hdeeper := ih.deeper limits lawful.simulation
      exact
        { evaluate := evaluateChecked_keeps ih
          execute := hdeeper.execute
          run := hdeeper.run }

end Standpoint

end Lookups

namespace Program

variable {program : Program} {m : Machine}

/-- Accepted programs run with checks for `super` as they do without. -/
theorem checkedRun_lookups_eq
    (hprogram : ∀ s ∈ program.statements, s.Placed .outermost)
    (why : Interruption)
    (limits : Limits)
    (echo : Bool)
    (hm : m.Ready) :
    program.checkedRun .lookups why limits echo m = program.run limits echo m := by
  have hkeeps := Invariance.runStatements_keeps Standpoint.lawful echo program.statements
    (fun s hs => (Standpoint.evaluates_checked why limits
      (Evaluator.roomFor limits.maxCallDepth)).execute (hprogram s hs)) m m ⟨rfl, hm.suits⟩
  have heq := hkeeps.eq_of_eq fun _ _ h => h.1
  rw [run_eq_runOn]
  simp only [checkedRun, runOn, heq]

end Program

/-- The machine of a session stays grounded. -/
theorem Session.grounded_after
    (inputs : List (String × String × Bool))
    (s : Session)
    (hs : s.machine.Grounded [⟨.scopes, Machine.globalScope⟩]) :
    (s.after inputs).machine.Grounded [⟨.scopes, Machine.globalScope⟩] :=
  s.machine_after (P := (·.Grounded [⟨.scopes, Machine.globalScope⟩]))
    (fun _ _ _ _ hm => Program.grounded_run hm) (fun _ hm => hm.of_eq (fun _ => rfl) rfl rfl)
    inputs hs

/-- **No check fails.** Whatever sources a session has run before, a program that is accepted runs
with all checks as it does without. Both reasons `why` that nothing in a program can catch are
admitted, and they lead to different endings, so the runs would not be equal if a check failed. -/
theorem Program.checkedRun_eq_run
    {program : Program} {file : Nat} {text : List Char} {collectAll : Bool}
    (hprogram : Program.ofText file text collectAll = .ok program)
    {why : Interruption}
    (hwhy : why.IsFinal)
    (limits : Limits)
    (echo : Bool)
    {m : Machine}
    (hready : m.Ready)
    (hgrounded : m.Grounded [⟨.scopes, Machine.globalScope⟩]) :
    program.checkedRun .all why limits echo m = program.run limits echo m :=
  (checkedRun_all_eq hwhy hgrounded).trans
    (checkedRun_lookups_eq (Program.placed_of_ofText hprogram) why limits echo hready)

end Lox
