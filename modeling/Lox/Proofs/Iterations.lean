import Lox.Proofs.Context
import Lox.Proofs.Journal.Sparing
import Lox.Proofs.Journal.Turns

/-!
# Each iteration owns its loop variable

The scopes in which the iterations of a `for` statement keep the variable are all different. What an
iteration leaves in its variable stays there for good, whatever happens later in the loop, in the
program and in the session, unless a function that was made in the iteration assigns to it.
-/

namespace Lox

namespace Turn.Chain

variable {limits : Limits} {before : ScopeId} {m : Machine} {t t' : Turn} {ts later : List Turn}
variable {name : String}

/-- The scopes are new, and those of later turns are newer. -/
theorem scopes (h : Turn.Chain limits before m ts) :
    (ts.map Turn.scope).Pairwise (· < ·) ∧ ∀ t ∈ ts, m.scopes.all.size ≤ t.scope := by
  induction h with
  | nil => simp
  | @cons before m t ts hstart hscope h hfinish hrest ih =>
      have hsize : m.scopes.all.size ≤ t.scope := by
        rw [hscope, hstart]
        exact Nat.le_refl _
      have hranged : t.scope < t.start.scopes.all.size := by
        rw [hscope, hstart]
        exact m.isRanged_enterCopy before
      have hlt := Nat.lt_of_lt_of_le hranged h.precedes.1.size_le
      refine ⟨List.pairwise_cons.mpr ⟨fun scope hmem => ?_, ih.1⟩, fun t' ht' => ?_⟩
      · obtain ⟨t', ht', rfl⟩ := List.mem_map.mp hmem
        exact Nat.lt_of_lt_of_le hlt (ih.2 t' ht')
      · rcases List.mem_cons.mp ht' with rfl | ht'
        · exact hsize
        · exact Nat.le_trans (Nat.le_of_lt (Nat.lt_of_le_of_lt hsize hlt)) (ih.2 t' ht')

/-- The chain goes on behind a turn. -/
theorem split
    {earlier : List Turn}
    (h : Turn.Chain limits before m (earlier ++ t :: later)) :
    (∃ (before : ScopeId) (m : Machine), t.start = m.enterCopy before) ∧
      Chronicle limits t.start t.journal t.finish ∧
      t.scope = t.start.current ∧
      t.finish.current = t.scope ∧
      Turn.Chain limits t.scope t.finish later := by
  induction earlier generalizing before m with
  | nil =>
      cases h with
      | cons hstart hscope h hfinish hrest => exact ⟨⟨_, _, hstart⟩, h, hscope, hfinish, hrest⟩
  | cons t' earlier ih =>
      cases h with
      | cons hstart hscope h hfinish hrest => exact ih hrest

theorem isRanged_start (h : Turn.Chain limits before m ts) (ht : t ∈ ts) : t.start.IsRanged := by
  obtain ⟨earlier, later, rfl⟩ := List.mem_iff_append.mp ht
  obtain ⟨⟨before', m', hstart⟩, -⟩ := h.split
  exact hstart ▸ m'.isRanged_enterCopy before'

/-- No calls are active but those that are active before. -/
theorem frames (h : Turn.Chain limits before m ts) : ∀ t ∈ ts, t.start.frames = m.frames := by
  induction h with
  | nil => simp
  | @cons before m t ts hstart hscope h hfinish hrest ih =>
      have hfirst : t.start.frames = m.frames := by
        rw [hstart]
        rfl
      intro t' ht'
      rcases List.mem_cons.mp ht' with rfl | ht'
      · exact hfirst
      · exact (ih t' ht').trans (h.frames.1.trans hfirst)

/-- A name that is bound before is bound by all turns, all the time. -/
theorem bound
    (h : Turn.Chain limits before m ts)
    (hname : ∃ b, (m.scopes.get before).find? name = some b) :
    ∀ t ∈ ts, (∃ b, (t.start.scopes.get t.scope).find? name = some b) ∧
      ∃ b, (t.finish.scopes.get t.scope).find? name = some b := by
  induction h with
  | nil => simp
  | @cons before m t ts hstart hscope h hfinish hrest ih =>
      have hcopy : t.start.scopes.get t.scope = m.scopes.get before := by
        rw [hscope, hstart]
        exact Scopes.get_create_self _ _
      have hlt : t.scope < t.start.scopes.all.size := by
        rw [hscope, hstart]
        exact m.isRanged_enterCopy before
      obtain ⟨b, hb⟩ := hname
      have hstartBound := hcopy.symm ▸ hb
      have hfinishBound := (h.precedes.1.scope t.scope hlt).exists_find? hstartBound
      intro t' ht'
      rcases List.mem_cons.mp ht' with rfl | ht'
      · exact ⟨⟨b, hstartBound⟩, hfinishBound⟩
      · exact ih hfinishBound t' ht'

/-- The code of a turn itself, outside of calls, knows the name as the variable of the turn or as
something newer. -/
theorem own
    (h : Turn.Chain limits before m ts)
    (hname : ∃ b, (m.scopes.get before).find? name = some b) :
    ∀ t ∈ ts, ∀ e ∈ t.journal, e.machine.frames.length = m.frames.length →
      e.machine.BindsSince name t.scope := by
  intro t ht e he hframes
  obtain ⟨⟨b, hb⟩, -⟩ := h.bound hname t ht
  have hranged := h.isRanged_start ht
  rw [← h.frames t ht] at hframes
  obtain ⟨earlier, later, rfl⟩ := List.mem_iff_append.mp ht
  obtain ⟨-, hturn, hscope, -⟩ := h.split
  have hstart : t.start.BindsSince name t.scope := by
    refine ⟨t.scope, Nat.le_refl _, ?_⟩
    rw [← hscope]
    exact Scopes.refers_self hb
  exact (hturn.bindsSince hranged hstart).2 e he hframes

/-- Turns spare the bindings of all older scopes if they bind the name themselves. -/
theorem spares
    {owner : ScopeId}
    (h : Turn.Chain limits before m ts)
    (hname : ∃ b, (m.scopes.get before).find? name = some b)
    (howner : ∃ b, (m.scopes.get owner).find? name = some b) :
    Spares name owner ((m.scopes.get owner).find? name) (ts.flatMap Turn.journal)
      (Recorded.lastMachine m ts) := by
  induction h with
  | nil => exact .nil _
  | @cons before m t ts hstart hscope h hfinish hrest ih =>
      have hbound := (Turn.Chain.cons hstart hscope h hfinish hrest).bound hname t
        List.mem_cons_self
      obtain ⟨b, hb⟩ := howner
      have hlt := Scopes.lt_size_of_find? hb
      have hsame : t.start.scopes.get owner = m.scopes.get owner := by
        rw [hstart]
        exact Scopes.get_create_of_ne _ (Nat.ne_of_lt hlt)
      have hcurrent : t.start.current = m.scopes.all.size := by
        rw [hstart]
        rfl
      have hdetached : t.start.Detached name owner := by
        refine ⟨hstart ▸ m.isRanged_enterCopy before, ⟨b, hsame.symm ▸ hb⟩, fun hrefers => ?_⟩
        obtain ⟨c, hc⟩ := hbound.1
        have heq := hrefers.eq_self (hscope ▸ hc)
        exact Nat.ne_of_lt hlt (heq.trans hcurrent)
      rw [List.flatMap_cons, Recorded.lastMachine_cons, ← hsame]
      exact (h.spares hdetached).append (ih hbound.2 (h.detached hdetached).bound)

theorem lastMachine_split (m : Machine) (earlier : List Turn) :
    Recorded.lastMachine m (earlier ++ t :: later) = Recorded.lastMachine t.finish later := by
  induction earlier generalizing m with
  | nil => exact Recorded.lastMachine_cons m t later
  | cons t' earlier ih =>
      rw [List.cons_append, Recorded.lastMachine_cons]
      exact ih _

theorem precedes (h : Turn.Chain limits before m ts) :
    m.Precedes (Recorded.lastMachine m ts) := by
  induction h with
  | nil => exact .refl _
  | @cons before m t ts hstart hscope h hfinish hrest ih =>
      have hcopy := Machine.Precedes.enterCopy m before
      rw [Recorded.lastMachine_cons]
      exact ((hstart ▸ hcopy).trans h.precedes.1).trans ih

/-- The variable of a turn stays bound. -/
theorem bound_last
    {earlier : List Turn}
    (h : Turn.Chain limits before m (earlier ++ t :: later))
    (hname : ∃ b, (m.scopes.get before).find? name = some b) :
    ∃ b, ((Recorded.lastMachine m (earlier ++ t :: later)).scopes.get t.scope).find? name =
      some b := by
  obtain ⟨b, hb⟩ := (h.bound hname t (by simp)).2
  obtain ⟨-, -, -, -, hrest⟩ := h.split
  rw [lastMachine_split]
  exact (hrest.precedes.scope t.scope (Scopes.lt_size_of_find? hb)).exists_find? hb

/-- What follows a turn spares its variable. -/
theorem spares_turn
    {earlier : List Turn}
    (h : Turn.Chain limits before m (earlier ++ t :: later))
    (hname : ∃ b, (m.scopes.get before).find? name = some b) :
    Spares name t.scope ((t.finish.scopes.get t.scope).find? name) (later.flatMap Turn.journal)
      (Recorded.lastMachine m (earlier ++ t :: later)) := by
  have hbound := (h.bound hname t (by simp)).2
  obtain ⟨-, -, -, -, hrest⟩ := h.split
  rw [lastMachine_split]
  exact hrest.spares hbound hbound

/-- The next turn begins in a copy of the scope of the one before, as it is when that one ends. -/
theorem next
    {earlier : List Turn}
    (h : Turn.Chain limits before m (earlier ++ t :: t' :: later)) :
    t'.start.scopes.get t'.scope = t.finish.scopes.get t.scope ∧
      t'.start.scopes.get t.scope = t.finish.scopes.get t.scope := by
  have hranged := h.isRanged_start (t := t) (by simp)
  obtain ⟨-, hturn, hscope, hfinish, hrest⟩ := h.split
  cases hrest with
  | cons hstart hscope' =>
      have hlt : t.scope < t.finish.scopes.all.size := by
        rw [← hfinish]
        exact (hturn.isRanged hranged).1
      rw [hscope', hstart]
      exact ⟨Scopes.get_create_self _ _, Scopes.get_create_of_ne _ (Nat.ne_of_lt hlt)⟩

end Turn.Chain

section Loops

variable {limits : Limits} {room : Nat} {m n : Machine}

theorem Settled.done_normal
    {catchFaults : Bool}
    {o : Outcome Signal}
    (h : Settled catchFaults o (.done .normal n)) :
    o = .done .normal n := by
  cases h
  rfl

/-- A declaration that ends normally has bound its name in the current scope. -/
theorem Recorder.bound_of_declare
    {name : String}
    {value : Option Expr}
    {isConst : Bool}
    {span : Span}
    (hm : m.IsRanged)
    (h : ((Recorder.ofRoom limits room).execute (.declare name value isConst span) m).1 =
      .done .normal n) :
    ∃ b, (n.scopes.get n.current).find? name = some b := by
  cases room with
  | zero => cases h
  | succ room =>
      let evaluated := Recorded.evaluateOptional (.ofRoom limits room) value
      let bind (v : Value) : Recorded Signal :=
        Recorded.own (Eval.define name v isConst) >>= fun _ => pure .normal
      have hsettled := Eval.settled limits.catchFaults span (fun m => ((evaluated >>= bind) m).1) m
      have hsettle : Eval.settle limits.catchFaults span (fun m => ((evaluated >>= bind) m).1) m =
          .done .normal n := h
      rw [hsettle] at hsettled
      have hdone := hsettled.done_normal
      have hevaluated : (Narrative.ofChronicles limits false).Covers m evaluated :=
        Narration.evaluateOptional (Recorder.chronicled_ofRoom limits room) (fun _ _ => trivial) m
      have hchronicle : Chronicle limits m (evaluated m).2 (evaluated m).1.machine :=
        hevaluated (hm.admitted limits)
      have hranged := (hchronicle.isRanged hm).1
      cases ho : (evaluated m).1 with
      | stopped why n' =>
          rw [Recorded.bind_stopped ho] at hdone
          cases hdone
      | done v n' =>
          rw [ho] at hranged
          rw [Recorded.bind_done ho] at hdone
          cases hdone
          have hget := Scopes.get_define_self ⟨name, v, isConst⟩ hranged
          refine ⟨⟨name, v, isConst⟩, (congrArg (·.find? name) hget).trans ?_⟩
          rw [Scope.find?_define, if_pos rfl]

/-- What the execution of a `for` statement consists of. -/
theorem Recorder.execute_forLoop
    (initial : Option Stmt)
    (condition increment : Option Expr)
    (body : Stmt)
    (place : Span)
    {inner : List Event}
    (h : (Recorder.ofRoom limits room).journal
      (.execute (.forLoop initial condition increment body place)) m =
        .began (.execute (.forLoop initial condition increment body place)) m :: inner) :
    ∃ below notes,
      room = below + 1 ∧
      let R := Recorder.ofRoom limits below
      let opening := Recorded.executeOptional R initial (m.enter m.current [])
      let turns := Recorded.forTurns R condition increment body limits.fuel initial m
      let left := (Recorder.ofRoom limits room).evaluator.leaves
        (.execute (.forLoop initial condition increment body place)) m
      inner = opening.2 ++ turns.flatMap Turn.journal ++ notes ∧
      left = (Recorded.lastMachine opening.1.machine turns).leave m.current ∧
      ∀ e ∈ notes, e.IsNote left := by
  cases room with
  | zero => cases (List.cons.inj h).1
  | succ room =>
      obtain ⟨hjournal, hmachine⟩ := Recorded.executeFor_turns (.ofRoom limits room) condition
        increment body limits.fuel initial m
      have hsettled := Eval.settled limits.catchFaults place (fun m =>
        (Recorded.executeFor (.ofRoom limits room) initial condition increment body limits.fuel
          m).1) m
      have hinner := (List.cons.inj h).2
      refine ⟨room, _, rfl, hinner.symm.trans (congrArg (· ++ _) hjournal),
        hsettled.machine_eq.trans hmachine, fun e he => Recorded.isNote_ending he⟩

/-- The turns of a `for` statement, on the machine on which its first clause has ended. If there are
any, the first clause was a declaration, the name is bound there. -/
theorem Recorded.chain_forTurns
    (limits : Limits)
    (room fuel : Nat)
    (name : String)
    (value : Option Expr)
    (isConst : Bool)
    (span : Span)
    (condition increment : Option Expr)
    (body : Stmt)
    (m : Machine) :
    let R := Recorder.ofRoom limits room
    let initial := some (Stmt.declare name value isConst span)
    let n := (executeOptional R initial (m.enter m.current [])).1.machine
    let turns := forTurns R condition increment body fuel initial m
    m.Precedes n ∧ n.frames = m.frames ∧ Turn.Chain limits n.current n turns ∧
      (turns ≠ [] → ∃ b, (n.scopes.get n.current).find? name = some b) := by
  intro R initial n turns
  have hR := Recorder.chronicled_ofRoom limits room
  have hstart := m.isRanged_enter m.current []
  have hinitial : (Narrative.ofChronicles limits false).Covers (m.enter m.current [])
      (executeOptional R initial) :=
    Narration.executeOptional hR (fun _ _ => trivial) _
  have hopening : Chronicle limits _ (executeOptional R initial (m.enter m.current [])).2 n :=
    hinitial (hstart.admitted limits)
  have hframes := hopening.frames.1
  rw [Machine.frames_enter] at hframes
  refine ⟨(Machine.Precedes.enter m _ _).trans hopening.precedes.1, hframes, ?_⟩
  simp only [turns, forTurns]
  split
  · next n' hdone =>
      have hn : n = n' := congrArg Outcome.machine hdone
      rw [hn]
      exact ⟨chain_turns hR condition increment body fuel true n'.current n',
        fun _ => Recorder.bound_of_declare hstart hdone⟩
  · exact ⟨.nil, fun h => absurd rfl h⟩

/-- What comes after a turn spares its variable, in the loop and after it. -/
theorem Aftermath.spares_turn
    {s : Stmt}
    {before : ScopeId}
    {start last : Machine}
    {t : Turn}
    {earlier following : List Turn}
    {inner notes rest : List Event}
    {name : String}
    (h : Aftermath limits s m room inner rest last)
    (hchain : Turn.Chain limits before start (earlier ++ t :: following))
    (hname : ∃ b, (start.scopes.get before).find? name = some b)
    (hsize : m.scopes.all.size ≤ t.scope)
    (hleaves : (Recorder.ofRoom limits room).evaluator.leaves (.execute s) m =
      (Recorded.lastMachine start (earlier ++ t :: following)).leave m.current)
    (hnotes : ∀ e ∈ notes, e.IsNote
      ((Recorder.ofRoom limits room).evaluator.leaves (.execute s) m)) :
    Spares name t.scope ((t.finish.scopes.get t.scope).find? name)
      (following.flatMap Turn.journal ++ notes ++ rest) last := by
  have hscopes : ((Recorder.ofRoom limits room).evaluator.leaves (.execute s) m).scopes =
      (Recorded.lastMachine start (earlier ++ t :: following)).scopes := by
    rw [hleaves]
    rfl
  have hloop := (hchain.spares_turn hname).of_scopes hscopes
  have hbound := hchain.bound_last hname
  have hlast := (h.spares name t.scope hsize (by rw [hleaves]; exact hbound)).1
  exact (hloop.append (.of_notes hnotes)).append hlast

end Loops

section Histories

/-- What happens when a session runs a source. -/
def Session.events (s : Session) (source path : String) (echo : Bool) : List Event :=
  match Program.ofText (s.sources.add path source).2 source.toList s.options.collectAll with
  | .error _ => []
  | .ok program => program.journal s.limits echo s.machine

/-- What happens when a session runs sources one after another. -/
def Session.history : Session → List (String × String × Bool) → List Event
  | _, [] => []
  | s, (source, path, echo) :: rest =>
      s.events source path echo ++ (s.run source path echo).2.history rest

theorem Session.limits_run (s : Session) (source path : String) (echo : Bool) :
    (s.run source path echo).2.limits = s.limits := by
  unfold Session.run
  split
  split <;> rfl

/-- A program runs in the global scope, and ends there. -/
theorem Program.chronicle
    (program : Program)
    (limits : Limits)
    (echo : Bool)
    {m : Machine}
    (hm : m.AtTop)
    (hranged : m.IsRanged) :
    Chronicle limits m (program.journal limits echo m) (program.run limits echo m).2 := by
  have hcovers : (Narrative.ofChronicles limits false).Covers m (program.recorded limits echo) :=
    Narration.runStatements (Recorder.chronicled_ofRoom limits _) (fun _ _ => trivial) echo m
  have h : Chronicle limits m (program.journal limits echo m) _ := hcovers (hranged.admitted limits)
  have hlast :
      (program.recorded limits echo m).1.machine.Defines (program.run limits echo m).2 := by
    obtain ⟨hframes, hcurrent⟩ := program.atTop_statements limits echo hm
    rw [program.recorded_outcome]
    rcases program.run_machine limits echo m with hrun | hrun
    · rw [hrun]
      exact .refl _
    · rw [hrun]
      exact .of_eq rfl hcurrent.symm hframes.symm
  have hall := h.append (.step hlast)
  rwa [List.append_nil] at hall

/-- The history of a session has a chronicle. -/
theorem Session.chronicle
    (inputs : List (String × String × Bool))
    (s : Session)
    (hs : s.machine.AtTop)
    (hranged : s.machine.IsRanged) :
    Chronicle s.limits s.machine (s.history inputs) (s.after inputs).machine := by
  induction inputs generalizing s with
  | nil => exact .nil _
  | cons input rest ih =>
      obtain ⟨source, path, echo⟩ := input
      have hfirst : Chronicle s.limits s.machine (s.events source path echo)
          (s.run source path echo).2.machine := by
        unfold Session.run Session.events
        cases hprogram : Program.ofText (s.sources.add path source).2 source.toList
            s.options.collectAll with
        | error errors =>
            simp only [hprogram]
            exact .nil _
        | ok program =>
            simp only [hprogram]
            have hrun := program.chronicle s.limits echo hs hranged
            have hall := hrun.append (.step (.of_eq rfl rfl rfl : (program.run s.limits echo
              s.machine).2.Defines (program.run s.limits echo s.machine).2.takeOutput.2))
            rwa [List.append_nil] at hall
      have hatTop : (s.run source path echo).2.machine.AtTop :=
        Session.atTop_after [(source, path, echo)] s hs
      have hrest := ih (s.run source path echo).2 hatTop (hfirst.isRanged hranged).1
      rw [s.limits_run] at hrest
      exact hfirst.append hrest

end Histories

/-- **Iterations.** Take any `for` statement that declares a variable, wherever its execution begins
in the history of a session, with whatever the session reads later. The history goes on with the
journal of this execution: the first clause, the turns of the loop and the end of the statement;
then comes all the rest.

The scopes of the turns are new and pairwise distinct, and each has the variable. The scope of a
turn begins with what the scope of the turn before has at that moment, which is when that turn has
ended.
The code of a turn itself, which runs outside of the calls that it makes, knows the name as the
variable of this turn or as something newer, so it assigns to no older variable.

After a turn has ended, however that was, at every later event of the loop and of all that follows,
the name has the value that it had at the end of the turn, in all scopes in which it stands for the
variable of this turn, and so wherever a function that was made in the turn reads it. The only
exception is that an assignment to this very variable has begun since, and each such assignment is
made in a call, begun since and not yet left, of a function that was made where the name stands for
the variable of this turn. -/
theorem iterations_own_variable
    (options : Options)
    (fuel : Nat)
    (terminal : Bool)
    (sources : SourceMap)
    (clock : Nat → Float)
    (inputs : List (String × String × Bool))
    (name : String)
    (value : Option Expr)
    (isConst : Bool)
    (span place : Span)
    (condition increment : Option Expr)
    (body : Stmt)
    (m : Machine)
    (past later : List Event)
    (hbegan : (Session.new options fuel terminal sources clock).history inputs =
      past ++ .began (.execute (.forLoop (some (.declare name value isConst span)) condition
        increment body place)) m :: later) :
    let limits := (Session.new options fuel terminal sources clock).limits
    let initial := Stmt.declare name value isConst span
    let loop := Stmt.forLoop (some initial) condition increment body place
    ∃ room opening notes rest,
      let turns := Recorded.forTurns (.ofRoom limits room) condition increment body fuel
        (some initial) m
      (Recorder.ofRoom limits (room + 1)).journal (.execute loop) m =
        .began (.execute loop) m :: (opening ++ turns.flatMap Turn.journal ++ notes) ∧
      later = opening ++ turns.flatMap Turn.journal ++ notes ++ rest ∧
      (turns.map Turn.scope).Pairwise (· < ·) ∧
      (∀ t ∈ turns, m.scopes.all.size ≤ t.scope ∧
        (∃ b, (t.start.scopes.get t.scope).find? name = some b) ∧
        ∀ e ∈ t.journal, e.machine.frames.length = m.frames.length →
          e.machine.BindsSince name t.scope) ∧
      (∀ earlier t t' following, turns = earlier ++ t :: t' :: following →
        t'.start.scopes.get t'.scope = t'.start.scopes.get t.scope ∧
          t'.start.scopes.get t.scope = t.finish.scopes.get t.scope) ∧
      ∀ earlier t following, turns = earlier ++ t :: following →
        ∃ b, (t.finish.scopes.get t.scope).find? name = some b ∧
          ∀ before e after,
            following.flatMap Turn.journal ++ notes ++ rest = before ++ e :: after →
            ((∀ id, e.machine.scopes.Refers id name t.scope →
                e.machine.scopes.value id name = .ok b.value) ∨
              ∃ a ∈ before, a.Assigns name t.scope) ∧
            (e.Assigns name t.scope → DuringCall name t.scope before e) := by
  intro limits initial loop
  have hhistory := Session.chronicle inputs (Session.new options fuel terminal sources clock)
    (Machine.atTop_initial clock) Nat.one_lt_two
  obtain ⟨top, inner, rest, rfl, hafter⟩ := hhistory.after_execute Nat.one_lt_two hbegan
  obtain ⟨room, notes, rfl, rfl, hleaves, hnotes⟩ :=
    Recorder.execute_forLoop _ condition increment body place hafter.journal
  obtain ⟨hprecedes, hframes, hchain, hname⟩ := Recorded.chain_forTurns limits room fuel name value
    isConst span condition increment body m
  refine ⟨room, _, notes, rest, hafter.journal, rfl, hchain.scopes.1, fun t ht => ?_,
    fun earlier t t' following hturns => ?_, fun earlier t following hturns => ?_⟩
  · have hbound := hname (List.ne_nil_of_mem ht)
    refine ⟨Nat.le_trans hprecedes.size_le (hchain.scopes.2 t ht), (hchain.bound hbound t ht).1, ?_⟩
    rw [← hframes]
    exact hchain.own hbound t ht
  · have hnext := (hturns ▸ hchain).next
    exact ⟨hnext.1.trans hnext.2.symm, hnext.2⟩
  · have ht : t ∈ Recorded.forTurns (.ofRoom limits room) condition increment body fuel
        (some initial) m := hturns ▸ by simp
    have hbound := hname (List.ne_nil_of_mem ht)
    have hsize := Nat.le_trans hprecedes.size_le (hchain.scopes.2 t ht)
    obtain ⟨b, hb⟩ := (hchain.bound hbound t ht).2
    have hspares := hafter.spares_turn (hturns ▸ hchain) hbound hsize (hturns ▸ hleaves) hnotes
    rw [hb] at hspares
    refine ⟨b, hb, fun before e after heq => ⟨?_, hspares.inCalls before e after heq⟩⟩
    rcases hspares.intact.events before e after heq with hsame | hassigned
    · exact .inl fun id hrefers => hrefers.value_eq hsame
    · exact .inr hassigned

/-- Does the execution of a `for` statement that declares the name begin? -/
def Event.beginsLoop (name : String) : Event → Bool
  | .began (.execute (.forLoop (some (.declare declared _ _ _)) ..)) _ => declared == name
  | _ => false

theorem Event.exists_of_beginsLoop
    {name : String}
    {e : Event}
    (h : e.beginsLoop name = true) :
    ∃ value isConst span condition increment body place m,
      e = .began (.execute (.forLoop (some (.declare name value isConst span)) condition increment
        body place)) m := by
  unfold beginsLoop at h
  split at h
  · obtain rfl := beq_iff_eq.mp h
    exact ⟨_, _, _, _, _, _, _, _, rfl⟩
  · cases h

theorem iterations_own_variable_closures :
    let source := "var fs = [];
      for (var i = 0; i < 3; i = i + 1) \x7b fs.add(() => i); \x7d
      for (var j = 0; j < 3; j = j + 1) print fs[j]();"
    let s := Session.new .default 100 false (.empty "" false) fun _ => 0
    (s.run source "" false).1.stdout = "0\n1\n2\n" ∧
      ∃ past value isConst span condition increment body place m room opening notes rest,
        let initial := Stmt.declare "i" value isConst span
        let loop := Stmt.forLoop (some initial) condition increment body place
        let turns := Recorded.forTurns (.ofRoom s.limits room) condition increment body 100
          (some initial) m
        s.history [(source, "", false)] = past ++ .began (.execute loop) m ::
          (opening ++ turns.flatMap Turn.journal ++ notes ++ rest) ∧
        (turns.map Turn.scope).Pairwise (· < ·) := by
  intro source s
  have hloop : (s.history [(source, "", false)]).any (Event.beginsLoop "i") = true := by
    decide +kernel
  obtain ⟨e, he, hbegins⟩ := List.any_eq_true.mp hloop
  obtain ⟨past, later, hhistory⟩ := List.mem_iff_append.mp he
  obtain ⟨value, isConst, span, condition, increment, body, place, m, rfl⟩ :=
    Event.exists_of_beginsLoop hbegins
  obtain ⟨room, opening, notes, rest, -, rfl, hscopes, -⟩ := iterations_own_variable .default 100
    false (.empty "" false) (fun _ => 0) [(source, "", false)] "i" value isConst span place
    condition increment body m past later hhistory
  exact ⟨by decide +kernel, past, value, isConst, span, condition, increment, body, place, m, room,
    opening, notes, rest, hhistory, hscopes⟩

end Lox
