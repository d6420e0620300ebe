import Lox.Proofs.Journal.Chronicled

/-!
# The turns of a loop

What a `for` statement does, taken apart: it executes its first clause and then goes through its
iterations, the `Turn`s. Each has a scope of its own, which is current when it begins. The turns of a
`for` statement follow one another, each with a chronicle of its own (`Recorded.chain_turns`).
-/

namespace Lox

/-- An iteration of a `for` statement: its scope, the machine on which it begins, what happens in
it, and the machine on which it ends. -/
structure Turn where
  scope : ScopeId
  start : Machine
  journal : List Event
  finish : Machine

namespace Recorded

section Turns

variable (R : Recorder) (condition increment : Option Expr) (body : Stmt)

/-- An iteration, in the scope that is current: the increment, unless it is the first one, the
condition and, if it holds, the body. The result is the signal of the body. -/
def turn (isFirst : Bool) : Recorded (Option Signal) := do
  advance R isFirst increment
  if ← holds R condition then
    return some (← loopBody R body)
  else
    return none

/-- Is there another iteration after one with this result? -/
def goesOn : Option Signal → Bool
  | some .normal | some .continued => true
  | some .broke | some (.returned _) | some (.thrown _) | none => false

/-- The signal of the loop after an iteration with this result. -/
def lastSignal : Option Signal → Signal
  | some .broke | none => .normal
  | some signal => signal

/-- The iterations, each in a copy of the scope of the one before. -/
def turns : Nat → Bool → ScopeId → Machine → List Turn
  | 0, _, _, _ => []
  | fuel + 1, isFirst, before, m =>
      let start := m.enterCopy before
      let result := turn R condition increment body isFirst start
      ⟨start.current, start, result.2, result.1.machine⟩ ::
        match result.1 with
        | .done ended n => if goesOn ended then turns fuel false start.current n else []
        | .stopped .. => []

/-- The machine after the iterations. -/
def lastMachine (m : Machine) (ts : List Turn) : Machine :=
  (ts.getLast?.map Turn.finish).getD m

/-- The iterations of a `for` statement that begins on the machine. -/
def forTurns (fuel : Nat) (initial : Option Stmt) (m : Machine) : List Turn :=
  match (executeOptional R initial (m.enter m.current [])).1 with
  | .done .normal n => turns R condition increment body fuel true n.current n
  | _ => []

end Turns

section Loops

variable (R : Recorder) (condition increment : Option Expr) (body : Stmt) (fuel : Nat)

theorem bind_assoc {α β γ : Type} (c : Recorded α) (f : α → Recorded β) (g : β → Recorded γ) :
    (c >>= f) >>= g = c >>= fun a => f a >>= g := by
  funext m
  cases hc : (c m).1 with
  | stopped why n => rw [bind_stopped hc, bind_stopped (congrArg Prod.fst (bind_stopped hc)),
      bind_stopped hc]
  | done a n =>
      rw [bind_done hc]
      cases hf : (f a n).1 with
      | stopped why n' =>
          rw [bind_stopped hf, bind_stopped ((congrArg Prod.fst (bind_done hc)).trans hf),
            bind_done hc]
      | done b n' =>
          rw [bind_done hf, bind_done ((congrArg Prod.fst (bind_done hc)).trans hf), bind_done hc,
            List.append_assoc]

theorem pure_bind {α β : Type} (a : α) (f : α → Recorded β) : pure a >>= f = f a :=
  rfl

/-- The iterations of a `for` statement are its turns. -/
theorem forIterations_succ (isFirst : Bool) (before : ScopeId) (m : Machine) :
    forIterations R condition increment body (fuel + 1) isFirst before m =
      (turn R condition increment body isFirst >>= fun ended =>
        if goesOn ended then
          forIterations R condition increment body fuel false (m.enterCopy before).current
        else
          pure (lastSignal ended)) (m.enterCopy before) := by
  -- what is left of the first computation is the machine with the copy
  change (advance R isFirst increment >>= fun _ => _) (m.enterCopy before) = _
  simp only [turn, bind_assoc]
  refine congrFun (congrArg _ (funext fun _ => congrArg _ (funext fun continues => ?_))) _
  cases continues with
  | false => rfl
  | true =>
      simp only [if_true, bind_assoc, pure_bind]
      refine congrArg _ (funext fun signal => ?_)
      cases signal <;> rfl

theorem lastMachine_cons (m : Machine) (t : Turn) (ts : List Turn) :
    lastMachine m (t :: ts) = lastMachine t.finish ts := by
  cases ts with
  | nil => rfl
  | cons t' ts =>
      have hlast : (t' :: ts).getLast? ≠ none := by simp
      obtain ⟨last, hlast⟩ := Option.ne_none_iff_exists'.mp hlast
      simp only [lastMachine, List.getLast?_cons_cons, hlast, Option.map_some, Option.getD_some]

/-- The journal of the iterations is made up of those of the turns, and the last one leaves the
machine behind. -/
theorem forIterations_turns (isFirst : Bool) (before : ScopeId) (m : Machine) :
    let result := forIterations R condition increment body fuel isFirst before m
    let ts := turns R condition increment body fuel isFirst before m
    result.2 = ts.flatMap Turn.journal ∧ result.1.machine = lastMachine m ts := by
  induction fuel generalizing isFirst before m with
  | zero => exact ⟨rfl, rfl⟩
  | succ fuel ih =>
      simp only [forIterations_succ, turns]
      cases hresult : (turn R condition increment body isFirst (m.enterCopy before)).1 with
      | stopped why n => simp [bind_stopped hresult, lastMachine, Outcome.machine]
      | done ended n =>
          simp only [bind_done hresult, lastMachine_cons]
          cases goesOn ended with
          | false =>
              simp only [Bool.false_eq_true, if_false, List.flatMap_cons, List.flatMap_nil]
              exact ⟨rfl, rfl⟩
          | true =>
              obtain ⟨hjournal, hmachine⟩ := ih false (m.enterCopy before).current n
              simp only [if_true, List.flatMap_cons]
              exact ⟨congrArg _ hjournal, hmachine⟩

/-- A `for` statement executes its first clause in a new scope and then goes through its turns. -/
theorem executeFor_turns (initial : Option Stmt) (m : Machine) :
    let opening := executeOptional R initial (m.enter m.current [])
    let ts := forTurns R condition increment body fuel initial m
    (executeFor R initial condition increment body fuel m).2 =
        opening.2 ++ ts.flatMap Turn.journal ∧
      (executeFor R initial condition increment body fuel m).1.machine =
        (lastMachine opening.1.machine ts).leave m.current := by
  simp only [executeFor, inInnerScope, around, Outcome.machine_onMachine, forTurns]
  cases hopening : (executeOptional R initial (m.enter m.current [])).1 with
  | stopped why n => simp [bind_stopped hopening, lastMachine, Outcome.machine]
  | done signal n =>
      rw [bind_done hopening]
      cases signal with
      | normal =>
          obtain ⟨hjournal, hmachine⟩ :=
            forIterations_turns R condition increment body fuel true n.current n
          exact ⟨congrArg _ hjournal, congrArg (·.leave m.current) hmachine⟩
      | returned | broke | continued | thrown => exact ⟨by simp [pure], rfl⟩

end Loops

end Recorded

/-- Turns that follow one another: each begins in a copy of a scope, on the machine on which the one
before has ended, and the next one is in a copy of its own scope. -/
inductive Turn.Chain (limits : Limits) : ScopeId → Machine → List Turn → Prop
  | nil {before : ScopeId} {m : Machine} : Turn.Chain limits before m []
  | cons
      {before : ScopeId}
      {m : Machine}
      {t : Turn}
      {ts : List Turn}
      (hstart : t.start = m.enterCopy before)
      (hscope : t.scope = t.start.current)
      (h : Chronicle limits t.start t.journal t.finish)
      (hfinish : t.finish.current = t.scope)
      (hrest : Turn.Chain limits t.scope t.finish ts) :
      Turn.Chain limits before m (t :: ts)

namespace Recorded

theorem Returning.turn
    (limits : Limits)
    (room : Nat)
    (condition increment : Option Expr)
    (body : Stmt)
    (isFirst : Bool) :
    Returning (turn (.ofRoom limits room) condition increment body isFirst) := by
  refine .bind (advance limits room increment isFirst) fun _ =>
    .bind (holds limits room condition) fun goesOn => ?_
  split
  · exact .bind (loopBody limits room body) fun _ => .pure _
  · exact .pure _

section Chains

variable {limits : Limits} {room : Nat}
variable (hR : (Recorder.ofRoom limits room).Narrates .anyCode (.ofChronicles limits))
variable (condition increment : Option Expr) (body : Stmt)

include hR

theorem turn_covers (isFirst : Bool) (m : Machine) :
    (Narrative.ofChronicles limits false).Covers m
      (turn (.ofRoom limits room) condition increment body isFirst) := by
  refine .bind (Narration.advance hR (fun _ _ => trivial) isFirst m) fun _ n => ?_
  refine .bind (Narration.holds hR (fun _ _ => trivial) n) fun goesOn n => ?_
  split
  · exact .bind (Narration.loopBody hR trivial n) fun _ _ => .pure _
  · exact .pure _

/-- The turns of a `for` statement form a chain. -/
theorem chain_turns (fuel : Nat) (isFirst : Bool) (before : ScopeId) (m : Machine) :
    Turn.Chain limits before m
      (turns (.ofRoom limits room) condition increment body fuel isFirst before m) := by
  induction fuel generalizing isFirst before m with
  | zero => exact .nil
  | succ fuel ih =>
      have hturn := turn_covers hR condition increment body isFirst (m.enterCopy before)
        ((m.isRanged_enterCopy before).admitted limits)
      refine .cons rfl rfl hturn (Returning.turn limits room condition increment body isFirst _) ?_
      split
      · next ended n hresult =>
          rw [hresult]
          split
          · exact ih false _ n
          · exact .nil
      · exact .nil

end Chains

end Recorded

end Lox
