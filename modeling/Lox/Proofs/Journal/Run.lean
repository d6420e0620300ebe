import Lox.Proofs.Journal.Step
import Mathlib.Data.Sum.Basic

/-!
# The journal of a run

The recorder for any room does what the evaluator does, and all its journals are accounted for
(`Recorder.accounted_ofRoom`). In particular a `try` statement that is not cut short goes through
its clauses in order (`Recorder.Accounted.orderly_try`). Whatever the journal of a program says was
begun is a point of the run (`Program.visits_of_began`).
-/

namespace Lox

section Clauses

variable {catchFaults : Bool} {R : Recorder} {m : Machine}

/-- Statements in order end with a signal unless they are cut short. -/
theorem Recorder.Accounted.settled_all
    (hR : R.Accounted catchFaults)
    (statements : List Stmt)
    (m : Machine)
    (htame : (Recorded.executeAll R statements m).1.IsTame catchFaults) :
    ∃ signal n, (Recorded.executeAll R statements m).1 = .done signal n := by
  induction statements generalizing m with
  | nil => exact ⟨.normal, m, rfl⟩
  | cons s rest ih =>
      simp only [Recorded.executeAll] at htame ⊢
      obtain ⟨signal, n, hs⟩ := hR.settled s m (Recorded.isTame_of_bind htame)
      rw [Recorded.bind_done hs] at htame ⊢
      cases signal with
      | normal => exact ih n htame
      | returned v => exact ⟨.returned v, n, rfl⟩
      | broke => exact ⟨.broke, n, rfl⟩
      | continued => exact ⟨.continued, n, rfl⟩
      | thrown t => exact ⟨.thrown t, n, rfl⟩

/-- A clause is left with a signal unless it is cut short. -/
theorem Recorder.Accounted.clauseBlock
    (hR : R.Accounted catchFaults)
    {clause : Clause}
    {statements : List Stmt}
    {bindings : List Binding}
    (htame : (Recorded.inClause clause statements
      (Recorded.executeBlock R statements bindings) m).1.IsTame catchFaults) :
    ∃ signal n inside,
      Recorded.inClause clause statements (Recorded.executeBlock R statements bindings) m =
        (.done signal n, clauseEvents clause statements m inside signal n) ∧
      Orderly inside := by
  have htracks : Tracks catchFaults true (bindings.map (·.value)) Signal.values
      (fun R => Recorded.executeBlock R statements bindings)
      (fun g => Eval.executeBlock g statements bindings) :=
    .executeBlock statements fun b hb => List.mem_map_of_mem hb
  have horderly := (htracks.accounted R hR m).orderly rfl htame
  obtain ⟨signal, n, hdone⟩ := hR.settled_all statements (m.enter m.current bindings)
    ((Outcome.isTame_onMachine ..).mp htame)
  have hblock : (Recorded.executeBlock R statements bindings m).1 =
      .done signal (n.leave m.current) :=
    congrArg (Outcome.onMachine (·.leave m.current)) hdone
  refine ⟨signal, n.leave m.current, (Recorded.executeBlock R statements bindings m).2, ?_,
    horderly⟩
  simp only [Recorded.inClause, hblock]
  rfl

theorem Recorder.Accounted.handled
    (hR : R.Accounted catchFaults)
    {handler : Option CatchClause}
    {first : Signal}
    (htame : (Recorded.executeHandler R handler first m).1.IsTame catchFaults) :
    ∃ pending n inside handling,
      Recorded.executeHandler R handler first m = (.done pending n, handling) ∧
      Handled handler first pending inside handling ∧ Orderly inside := by
  cases handler with
  | none =>
      refine ⟨first, m, [], [], ?_, .passed (.inl rfl), .nil⟩
      cases first <;> rfl
  | some clause =>
      cases clause with
      | mk name body =>
          cases first with
          | thrown t =>
              obtain ⟨signal, n, inside, h, horderly⟩ := hR.clauseBlock htame
              exact ⟨signal, n, inside, _, h, .entered, horderly⟩
          | normal => exact ⟨.normal, m, [], [], rfl, .passed (.inr nofun), .nil⟩
          | returned v => exact ⟨.returned v, m, [], [], rfl, .passed (.inr nofun), .nil⟩
          | broke => exact ⟨.broke, m, [], [], rfl, .passed (.inr nofun), .nil⟩
          | continued => exact ⟨.continued, m, [], [], rfl, .passed (.inr nofun), .nil⟩

theorem Recorder.Accounted.cleaned
    (hR : R.Accounted catchFaults)
    {cleanup : Option (List Stmt)}
    {pending : Signal}
    (htame : (Recorded.executeCleanup R cleanup pending m).1.IsTame catchFaults) :
    ∃ signal n inside cleaning,
      Recorded.executeCleanup R cleanup pending m = (.done signal n, cleaning) ∧
      Cleaned cleanup pending signal inside cleaning ∧ Orderly inside := by
  cases cleanup with
  | none => exact ⟨pending, m, [], [], rfl, .absent, .nil⟩
  | some statements =>
      simp only [Recorded.executeCleanup] at htame ⊢
      obtain ⟨last, n, inside, h, horderly⟩ := hR.clauseBlock (Recorded.isTame_of_bind htame)
      rw [Recorded.bind_done (congrArg Prod.fst h), h]
      refine ⟨pending.overriddenBy last, n, inside,
        clauseEvents .cleanup statements m inside last n, ?_, .entered, horderly⟩
      cases last with
      | normal => exact Prod.ext rfl (List.append_nil _)
      | returned | broke | continued | thrown => exact Prod.ext rfl (List.append_nil _)

/-- A `try` statement goes through its clauses in order. -/
theorem Recorder.Accounted.orderly_try
    (hR : R.Accounted catchFaults)
    {body : List Stmt}
    {handler : Option CatchClause}
    {cleanup : Option (List Stmt)}
    {span : Span}
    (htame : (Recorded.executeTry R body handler cleanup m).1.IsTame catchFaults) :
    Orderly (Recorded.starting (.execute (.tryBlock body handler cleanup span))
      (Recorded.settle catchFaults (.tryBlock body handler cleanup span)
        (Recorded.executeTry R body handler cleanup)) m).2 := by
  have happly := htame
  simp only [Recorded.executeTry] at happly
  obtain ⟨first, n₁, inBody, hbody, horderly₁⟩ := hR.clauseBlock (Recorded.isTame_of_bind happly)
  rw [Recorded.bind_done (congrArg Prod.fst hbody)] at happly
  obtain ⟨pending, n₂, inHandler, handling, hhandler, hhandled, horderly₂⟩ :=
    hR.handled (Recorded.isTame_of_bind happly)
  rw [Recorded.bind_done (congrArg Prod.fst hhandler)] at happly
  obtain ⟨signal, n₃, inCleanup, cleaning, hcleanup, hcleaned, horderly₃⟩ := hR.cleaned happly
  have htry : Recorded.executeTry R body handler cleanup m =
      (.done signal n₃, clauseEvents .body body m inBody first n₁ ++ (handling ++ cleaning)) := by
    simp only [Recorded.executeTry]
    rw [Recorded.bind_done (congrArg Prod.fst hbody),
      Recorded.bind_done (congrArg Prod.fst hhandler), hbody, hhandler, hcleanup]
  have hsettled : Eval.settle catchFaults span
      (fun m => (Recorded.executeTry R body handler cleanup m).1) m = .done signal n₃ := by
    simp only [Eval.settle, htry]
  have hjournal : (Recorded.starting (.execute (.tryBlock body handler cleanup span))
      (Recorded.settle catchFaults (.tryBlock body handler cleanup span)
        (Recorded.executeTry R body handler cleanup)) m).2 =
      .began (.execute (.tryBlock body handler cleanup span)) m ::
        (clauseEvents .body body m inBody first n₁ ++ (handling ++ (cleaning ++
          [.ended (.tryBlock body handler cleanup span) signal n₃]))) := by
    simp [Recorded.starting, Recorded.settle, Stmt.span, hsettled, htry, Recorded.ending]
  rw [hjournal]
  exact .attempt horderly₁ horderly₂ horderly₃ hhandled hcleaned .nil

end Clauses

section Rooms

variable {limits : Limits} {R : Recorder}

theorem Recorder.Accounted.deeper (hR : R.Accounted limits.catchFaults) :
    (Recorder.deeper limits R).Accounted limits.catchFaults where
  evaluate e m := by
    have htracks : Tracks limits.catchFaults true [] _ _ _ := Tracks.evaluateParts limits e
    exact .starting nofun (htracks.accounted R hR m)
  execute s m := by
    by_cases hs : ∀ body handler cleanup span, s ≠ .tryBlock body handler cleanup span
    · obtain ⟨c₀, -, htracks⟩ : ∃ c₀ : Evaluator → Eval Signal, _ ∧
          Tracks limits.catchFaults true [] Signal.values
            (fun R => Recorded.executeParts limits R s) c₀ :=
        Tracks.executeParts limits s fun _ => hs
      exact (htracks.accounted R hR m).plainStatement hs
    · obtain ⟨c₀, -, htracks⟩ : ∃ c₀ : Evaluator → Eval Signal, _ ∧
          Tracks limits.catchFaults false [] Signal.values
            (fun R => Recorded.executeParts limits R s) c₀ :=
        Tracks.executeParts limits s nofun
      refine (htracks.accounted R hR m).statement fun htame => ?_
      cases s with
      | tryBlock body handler cleanup span => exact hR.orderly_try htame
      | expression | print | declare | block | ifElse | whileLoop | doWhile | forLoop | breakLoop
      | continueLoop | function | returnValue | classDecl | throwValue | dump =>
          exact absurd nofun hs
  run body m := by
    have htracks : Tracks limits.catchFaults true [] _ _ _ := Tracks.executeAll body
    exact .starting nofun (htracks.accounted R hR m)
  settled s m htame :=
    (Eval.settled limits.catchFaults s.span
      (fun m => (Recorded.executeParts limits R s m).1) m).done_of_isTame htame

/-- **Accounts.** The journals of the recorder for any room are accounted for. -/
theorem Recorder.accounted_ofRoom (limits : Limits) (room : Nat) :
    (Recorder.ofRoom limits room).Accounted limits.catchFaults := by
  induction room with
  | zero =>
      exact
        { evaluate := fun _ m => .own (.refl m)
          execute := fun _ m => .own (.refl m)
          run := fun _ m => .own (.refl m)
          settled := fun _ _ htame => absurd htame fun h => h }
  | succ room ih => exact ih.deeper

theorem Recorder.Knows.deeper (hR : R.Knows) : (Recorder.deeper limits R).Knows where
  evaluate e := by
    have htracks : Tracks false false [] _ _ _ := Tracks.evaluateParts limits e
    exact (htracks.knows R hR).starting (.evaluate e)
  execute s := by
    obtain ⟨c₀, -, htracks⟩ : ∃ c₀ : Evaluator → Eval Signal, _ ∧
        Tracks false false [] Signal.values (fun R => Recorded.executeParts limits R s) c₀ :=
      Tracks.executeParts limits s nofun
    exact ((htracks.knows R hR).settle limits.catchFaults s).starting (.execute s)
  run body := by
    have htracks : Tracks false false [] _ _ _ := Tracks.executeAll body
    exact (htracks.knows R hR).starting (.run body)

/-- **Knowledge.** The recorder for any room computes and throws known values only. -/
theorem Recorder.knows_ofRoom (limits : Limits) (room : Nat) :
    (Recorder.ofRoom limits room).Knows := by
  induction room with
  | zero =>
      exact
        { evaluate := fun _ => .own (.stop trivial)
          execute := fun _ => .own (.stop trivial)
          run := fun _ => .own (.stop trivial) }
  | succ room ih => exact ih.deeper

theorem Recorder.evaluator_deeper (limits : Limits) (R : Recorder) :
    (Recorder.deeper limits R).evaluator = Evaluator.deeper limits R.evaluator := by
  have hevaluate (e : Expr) :
      (fun m => (Recorded.evaluateParts limits R e m).1) =
        Eval.evaluateStep limits R.evaluator e :=
    funext ((Tracks.evaluateParts limits e : Tracks false false [] _ _ _).erases R)
  have hexecute (s : Stmt) :
      (fun m => (Recorded.executeStep limits R s m).1) = Eval.executeStep limits R.evaluator s := by
    obtain ⟨c₀, heq, htracks⟩ : ∃ c₀ : Evaluator → Eval Signal,
        (∀ g, Eval.executeStep limits g s = Eval.settle limits.catchFaults s.span (c₀ g)) ∧
        Tracks false false [] Signal.values (fun R => Recorded.executeParts limits R s) c₀ :=
      Tracks.executeParts limits s nofun
    rw [heq, ← funext (htracks.erases R)]
    rfl
  have hrun (body : List Stmt) :
      (fun m => (Recorded.executeAll R body m).1) = Eval.executeAll R.evaluator body :=
    funext ((Tracks.executeAll body : Tracks false false [] _ _ _).erases R)
  exact congr (congrArg₂ Evaluator.mk (funext hevaluate) (funext hexecute)) (funext hrun)

/-- **Erasure.** Without the journals, the recorder is the evaluator. -/
theorem Recorder.evaluator_ofRoom (limits : Limits) (room : Nat) :
    (Recorder.ofRoom limits room).evaluator = Evaluator.ofRoom limits room := by
  induction room with
  | zero => rfl
  | succ room ih =>
      have hdeeper := evaluator_deeper limits (Recorder.ofRoom limits room)
      rw [ih] at hdeeper
      exact hdeeper

end Rooms

section Visits

variable {β : Type} {limits : Limits} {start : Evaluator → β} {top : Nat}

/-- What the journal of an answer says was begun is a point of the run if the question is. -/
theorem Recorder.visits_of_began
    (room : Nat)
    {q q' : Question}
    {n n' : Machine}
    (h : Visits limits start top room q n)
    (hbegan : .began q' n' ∈ (Recorder.ofRoom limits room).journal q n) :
    ∃ room', Visits limits start top room' q' n' := by
  induction room generalizing q n with
  | zero =>
      have hraised : (Recorder.ofRoom limits 0).journal q n = [.raised .hostDepth n] := by
        cases q <;> rfl
      rw [hraised, List.mem_singleton] at hbegan
      cases hbegan
  | succ room ih =>
      -- the answer asks what the rest of its journal comes from
      have hinside {α : Type} {wrap : Outcome α → Outcome Value ⊕ Outcome Signal}
          {c₀ : Evaluator → Eval α}
          (hwrap : Function.Injective wrap)
          (hanswer : ∀ g, (Evaluator.deeper limits g).answer q n = wrap (c₀ g n))
          (hasked : ∃ q₁ n₁, .began q' n' ∈ (Recorder.ofRoom limits room).journal q₁ n₁ ∧
            ∀ why : Interruption, why.IsFinal → ∃ n'',
              c₀ ((Recorder.ofRoom limits room).evaluator.stoppedAt q₁ n₁ why) n =
                .stopped why n'') :
          ∃ room', Visits limits start top room' q' n' := by
        obtain ⟨q₁, n₁, hjournal, hstopped⟩ := hasked
        rw [evaluator_ofRoom] at hstopped
        refine ih (.inside h ?_) hjournal
        simp only [hanswer]
        exact (asks_of_final hstopped).map hwrap
      cases q with
      | evaluate e =>
          rcases List.mem_cons.mp hbegan with heq | hbegan
          · cases heq
            exact ⟨_, h⟩
          · have htracks : Tracks false false [] _ _ _ := Tracks.evaluateParts limits e
            exact hinside Sum.inl_injective (fun _ => rfl) (htracks.asked _ n q' n' hbegan)
      | run body =>
          rcases List.mem_cons.mp hbegan with heq | hbegan
          · cases heq
            exact ⟨_, h⟩
          · have htracks : Tracks false false [] _ _ _ := Tracks.executeAll body
            exact hinside Sum.inr_injective (fun _ => rfl) (htracks.asked _ n q' n' hbegan)
      | execute s =>
          rcases List.mem_cons.mp hbegan with heq | hbegan
          · cases heq
            exact ⟨_, h⟩
          · obtain ⟨c₀, hstep, htracks⟩ : ∃ c₀ : Evaluator → Eval Signal,
                (∀ g, Eval.executeStep limits g s =
                  Eval.settle limits.catchFaults s.span (c₀ g)) ∧
                Tracks false false [] Signal.values (fun R => Recorded.executeParts limits R s) c₀ :=
              Tracks.executeParts limits s nofun
            have hbegan : .began q' n' ∈
                (Recorded.executeParts limits (Recorder.ofRoom limits room) s n).2 := by
              refine (List.mem_append.mp hbegan).resolve_right fun hend => ?_
              unfold Recorded.ending at hend
              split at hend
              · cases List.mem_singleton.mp hend
              · cases hend
            obtain ⟨q₁, n₁, hjournal, hstopped⟩ := htracks.asked _ n q' n' hbegan
            refine hinside Sum.inr_injective (fun g => congrArg Sum.inr (congrFun (hstep g) n))
              ⟨q₁, n₁, hjournal, fun why hwhy => ?_⟩
            obtain ⟨n'', hn''⟩ := hstopped why hwhy
            exact ⟨n'', Eval.settle_final _ _ hwhy hn''⟩

end Visits

section Programs

variable {catchFaults strict : Bool}

theorem Tracks.runStatements {uses : List Value} (echo : Bool) (statements : List Stmt) :
    Tracks catchFaults strict uses (fun t => t.toList.map Thrown.payload)
      (fun R => Recorded.runStatements R echo statements)
      (fun g => Eval.runStatements g echo statements) := by
  induction statements generalizing uses with
  | nil => exact pure (by simp)
  | cons s rest ih =>
      have hrest {uses : List Value} : Tracks catchFaults strict uses
          (fun t : Option Thrown => t.toList.map Thrown.payload)
          (fun R => if echo then Recorded.own (Eval.echoValue s) >>= fun _ =>
              Recorded.runStatements R echo rest
            else Recorded.runStatements R echo rest)
          (fun g => if echo then Eval.echoValue s >>= fun _ => Eval.runStatements g echo rest
            else Eval.runStatements g echo rest) := by
        split
        · exact bind (elementary (.echoValue s) (.echoValue s)) fun _ => ih
        · exact ih
      refine bind (execute s) fun signal => ?_
      cases signal with
      | thrown t => exact pure (by simp)
      | normal | returned | broke | continued => exact hrest

variable (program : Program) (limits : Limits) (echo : Bool) (m : Machine)

/-- The run of a program with its journal is the run of the program. -/
theorem Program.recorded_outcome :
    (program.recorded limits echo m).1 =
      Eval.runStatements (.ofRoom limits (Evaluator.roomFor limits.maxCallDepth)) echo
        program.statements m := by
  have htracks : Tracks false false [] _ _ _ := Tracks.runStatements echo program.statements
  rw [← Recorder.evaluator_ofRoom]
  exact htracks.erases _ m

/-- The journal of a program is accounted for. -/
theorem Program.accounted :
    Accounted limits.catchFaults true m (program.recorded limits echo m).1
      (program.journal limits echo m) :=
  (Tracks.runStatements echo program.statements : Tracks _ true [] _ _ _).accounted _
    (Recorder.accounted_ofRoom limits _) m

/-- The machines of the journal of a program know their classes, and so does the last one. -/
theorem Program.knows (hm : m.Knows []) :
    (∀ e ∈ program.journal limits echo m, e.machine.Knows []) ∧
      (program.recorded limits echo m).1.machine.Knows [] := by
  have htracks : Tracks false false [] _ _ _ := Tracks.runStatements echo program.statements
  have hknows := htracks.knows _
    (Recorder.knows_ofRoom limits (Evaluator.roomFor limits.maxCallDepth))
  exact ⟨hknows.events m [] (List.Subset.refl _) hm,
    (hknows.outcome m [] (List.Subset.refl _) hm).alone⟩

/-- What the journal of a program says was begun is a point of the run. -/
theorem Program.visits_of_began
    {q : Question}
    {n : Machine}
    (hbegan : .began q n ∈ program.journal limits echo m) :
    ∃ room, Visits limits (fun g => Eval.runStatements g echo program.statements m)
      (Evaluator.roomFor limits.maxCallDepth) room q n := by
  have htracks : Tracks false false [] _ _ _ := Tracks.runStatements echo program.statements
  obtain ⟨q', n', hjournal, hstopped⟩ := htracks.asked _ m q n hbegan
  rw [Recorder.evaluator_ofRoom] at hstopped
  exact Recorder.visits_of_began _ (.first (asks_of_final hstopped)) hjournal

/-- How a run ends is how its journal ends, and then only the scope and the calls change. -/
theorem Program.sameStore_run :
    (program.recorded limits echo m).1.machine.SameStore (program.run limits echo m).2 ∧
      (∀ fault, (program.recorded limits echo m).1.fault? = some fault ↔
        ∃ f, (program.run limits echo m).1 = .failed f ∧ f.fault = fault) := by
  rw [program.recorded_outcome]
  simp only [Program.run]
  split
  all_goals
    next h =>
      rw [h]
      exact ⟨rfl, fun fault => by simp [Outcome.fault?]⟩

end Programs

end Lox
