import Lox.Proofs.Simulation

/-!
# Scopes and calls under a simulation

A computation that runs in a scope or call of its own is the computation on the machine inside,
followed by the return to the machine outside: `inNewScope_apply` and `inCall_apply`. With the
laws on entering this gives the rules for blocks, function bodies and calls.
-/

namespace Lox

namespace Eval

variable {α : Type}

theorem foldl_define_current (id : ScopeId) (bindings : List Binding) (m : Machine) :
    (bindings.foldl (fun n b => n.define id b) m).current = m.current := by
  induction bindings generalizing m with
  | nil => rfl
  | cons b rest ih => exact ih (m.define id b)

theorem inNewScope_apply
    (parent : ScopeId)
    (bindings : List Binding)
    (c : Eval α)
    (m : Machine) :
    inNewScope parent bindings c m =
      (c (m.enter parent bindings)).onMachine (·.leave m.current) := by
  have hcurrent :
      (bindings.foldl (fun n b => n.define (m.newScope parent).1 b) (m.newScope parent).2).current =
        m.current :=
    foldl_define_current _ bindings _
  simp only [inNewScope, bind_apply, Eval.make, Eval.update, Outcome.andThen, inScope,
    Machine.enter, hcurrent]
  split <;> simp_all [Outcome.onMachine, Machine.leave]

theorem inInnerScope_apply (bindings : List Binding) (c : Eval α) (m : Machine) :
    inInnerScope bindings c m =
      (c (m.enter m.current bindings)).onMachine (·.leave m.current) :=
  inNewScope_apply m.current bindings c m

theorem inCall_apply (frame : Frame) (c : Eval α) (m : Machine) :
    inCall frame c m = (c (m.pushFrame frame)).onMachine Machine.popFrame := by
  simp only [inCall, Machine.pushFrame]
  split <;> simp_all [Outcome.onMachine, Machine.popFrame]

end Eval

namespace Simulation

open Eval

variable {code : Discipline} {S : Simulation code}
variable {k : code.Setting} {p : S.Place} {α : Type}

/-- The machines are related at a place beside `p`. -/
def near (S : Simulation code) (k : code.Setting) (p : S.Place) (m m' : Machine) : Prop :=
  ∃ q, S.beside p q ∧ S.rel k q m m'

/-- A signal that may leave a block may end the block itself. -/
theorem signal_of_block {sig : Signal} (h : S.signal (code.block k) sig) :
    S.signal k sig := by
  cases sig with
  | normal => trivial
  | returned v => exact ⟨code.returns_block h.1, h.2⟩
  | broke => exact code.breaks_block h
  | continued => exact code.breaks_block h
  | thrown t => exact h

/-- A signal of the body of a loop that does not concern the loop leaves it. -/
theorem signal_of_loop
    {sig : Signal}
    (h : S.signal (code.loop (code.block k)) sig)
    (hbroke : sig ≠ .broke)
    (hcontinued : sig ≠ .continued) :
    S.signal k sig := by
  cases sig with
  | normal => trivial
  | returned v => exact ⟨code.returns_block (code.returns_loop h.1), h.2⟩
  | broke => exact absurd rfl hbroke
  | continued => exact absurd rfl hcontinued
  | thrown t => exact h

/-- Statements in order. -/
theorem executeAll
    {g g' : Evaluator}
    (hg : ∀ s, code.stmt k s → S.Keeps k p (S.signal k) (g.execute s) (g'.execute s))
    (statements : List Stmt)
    (hstmts : ∀ s ∈ statements, code.stmt k s) :
    S.Keeps k p (S.signal k) (Eval.executeAll g statements) (Eval.executeAll g' statements) := by
  induction statements with
  | nil => exact Related.pure trivial
  | cons s rest ih =>
      have hfirst := hg s (hstmts s (by simp))
      have hrest := ih fun t ht => hstmts t (by simp [ht])
      refine Related.bind hfirst fun sig hsig => ?_
      cases sig with
      | normal => exact hrest
      | returned v => exact Related.pure hsig
      | broke => exact Related.pure hsig
      | continued => exact Related.pure hsig
      | thrown t => exact Related.pure hsig

variable (hS : S.Lawful)
include hS

theorem Lawful.near_self {m m' : Machine} (h : S.rel k p m m') : S.near k p m m' :=
  ⟨p, hS.beside_refl p, h⟩

theorem Lawful.near_of_beside
    {q : S.Place} {m m' : Machine}
    (hpq : S.beside p q)
    (h : S.near k q m m') :
    S.near k p m m' := by
  obtain ⟨r, hqr, hr⟩ := h
  exact ⟨r, hS.beside_trans hpq hqr, hr⟩

/-- A computation in an inner scope, which may end at a place beside the one where it starts. -/
theorem Lawful.inInnerScope
    {V : α → Prop} {bindings : List Binding} {c c' : Eval α}
    (hk : code.runs k)
    (hb : ∀ b ∈ bindings, code.binds k b.name ∧ S.value b.value)
    (hc : ∀ q, Related (S.rel (code.block k) q) (S.near (code.block k) q) V
      (Interruption.Carries S.value) c c') :
    S.Keeps k p V (Eval.inInnerScope bindings c) (Eval.inInnerScope bindings c') := by
  intro m m' hm
  obtain ⟨q, hq, hreturns⟩ := hS.enter hk hm hb
  rw [inInnerScope_apply, inInnerScope_apply]
  refine (hc q _ _ hq).onMachine ?_
  rintro n n' ⟨r, hqr, hr⟩
  exact hreturns r n n' hqr hr

/-- A block with its own bindings. -/
theorem Lawful.executeBlock
    {g g' : Evaluator} {statements : List Stmt} {bindings : List Binding}
    (hg : ∀ {p s}, code.stmt (code.block k) s →
      S.Keeps (code.block k) p (S.signal (code.block k)) (g.execute s) (g'.execute s))
    (hk : code.runs k)
    (hb : ∀ b ∈ bindings, code.binds k b.name ∧ S.value b.value)
    (hstmts : ∀ s ∈ statements, code.stmt (code.block k) s) :
    S.Keeps k p (S.signal k) (Eval.executeBlock g statements bindings)
      (Eval.executeBlock g' statements bindings) := by
  refine Related.conclude ?_ fun sig => signal_of_block
  refine hS.inInnerScope hk hb fun q => ?_
  exact (executeAll (fun s => hg) statements hstmts).weaken (fun _ _ => hS.near_self)
    fun _ h => h

/-- The body of a loop in its own scope; its signal may concern the loop. -/
theorem Lawful.loopBody
    {g g' : Evaluator} {body : Stmt}
    (hg : ∀ {p s}, code.stmt (code.loop (code.block k)) s →
      S.Keeps (code.loop (code.block k)) p (S.signal (code.loop (code.block k)))
        (g.execute s) (g'.execute s))
    (hk : code.runs k)
    (hbody : code.stmt (code.loop (code.block k)) body) :
    S.Keeps k p (S.signal (code.loop (code.block k))) (Eval.loopBody g body)
      (Eval.loopBody g' body) := by
  refine hS.inInnerScope hk (by simp) fun q => ?_
  have hall : S.Keeps (code.loop (code.block k)) q (S.signal (code.loop (code.block k)))
      (Eval.executeAll g [body]) (Eval.executeAll g' [body]) :=
    executeAll (fun s => hg) [body] (by simpa using hbody)
  intro m m' hm
  refine (hall m m' (hS.loop.mpr hm)).weaken (fun n n' hn => ?_) fun _ h => h
  exact hS.near_self (hS.loop.mp hn)

end Simulation

end Lox
