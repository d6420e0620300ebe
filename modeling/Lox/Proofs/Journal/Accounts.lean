import Lox.Proofs.Journal.Course

/-!
# Accounts of computations

The journal of a computation is accounted for if those of its parts are: one rule for each way in
which computations with journals are built, up to whole statements.
-/

namespace Lox

section Outcomes

variable {α β : Type}

@[simp] theorem Outcome.raised_done (a : α) (m n : Machine) : (Outcome.done a m).raised n = [] :=
  rfl

theorem Outcome.raised_onMachine (o : Outcome α) (change : Machine → Machine) (n : Machine) :
    (o.onMachine change).raised n = o.raised n := by
  cases o with
  | done a m => rfl
  | stopped why m => cases why <;> rfl

theorem Outcome.isTame_onMachine (o : Outcome α) (change : Machine → Machine) (catchFaults : Bool) :
    (o.onMachine change).IsTame catchFaults ↔ o.IsTame catchFaults := by
  cases o with
  | done a m => exact .rfl
  | stopped why m => cases why <;> exact .rfl

@[simp] theorem Outcome.machine_onMachine (o : Outcome α) (change : Machine → Machine) :
    (o.onMachine change).machine = change o.machine := by
  cases o <;> rfl

/-- What stops a computation stops what follows it in the same way. -/
theorem Outcome.raised_stopped (why : Interruption) (m n : Machine) :
    (stopped why m : Outcome α).raised n = (stopped why m : Outcome β).raised n := by
  cases why <;> rfl

theorem Outcome.isTame_stopped (why : Interruption) (m : Machine) (catchFaults : Bool) :
    (stopped why m : Outcome α).IsTame catchFaults ↔
      (stopped why m : Outcome β).IsTame catchFaults := by
  cases why <;> exact .rfl

theorem Failure.fault_locate (f : Failure) (span : Span) : (f.locate span).fault = f.fault := by
  unfold Failure.locate
  split <;> rfl

theorem Failure.fault_attachTrace (f : Failure) (site : Span) (frames : List Frame) :
    (f.attachTrace site frames).fault = f.fault := by
  unfold Failure.attachTrace
  split <;> rfl

/-- Locating a fault changes its label only. -/
theorem Eval.locating_cases (span : Span) (p : Eval α) (m : Machine) :
    Eval.locating span p m = p m ∨
      ∃ f f' n, p m = .stopped (.failed f) n ∧ Eval.locating span p m = .stopped (.failed f') n ∧
        f'.fault = f.fault := by
  unfold Eval.locating
  cases hp : p m with
  | done a n => exact .inl rfl
  | stopped why n =>
      cases why with
      | failed f => exact .inr ⟨f, f.locate span, n, rfl, rfl, f.fault_locate span⟩
      | thrown t => exact .inl rfl
      | exhausted => exact .inl rfl
      | outOfFuel => exact .inl rfl

/-- How a statement ends: with the signal of what it consists of, with a value that was thrown
inside, with the message of a caught fault as a thrown value, or not at all. -/
inductive Settled (catchFaults : Bool) : Outcome Signal → Outcome Signal → Prop
  | done
      {signal : Signal}
      {n : Machine} :
      Settled catchFaults (.done signal n) (.done signal n)
  | thrown
      {t : Thrown}
      {n : Machine} :
      Settled catchFaults (.stopped (.thrown t) n) (.done (.thrown t) n)
  | caught
      {f : Failure}
      {t : Thrown}
      {n : Machine}
      (hcaught : f.fault.IsCaught catchFaults)
      (hpayload : t.payload = .string f.fault.message) :
      Settled catchFaults (.stopped (.failed f) n) (.done (.thrown t) n)
  | stopped
      {why why' : Interruption}
      {n : Machine}
      (hwild : ¬(Outcome.stopped why n : Outcome Signal).IsTame catchFaults)
      (hwild' : ¬(Outcome.stopped why' n : Outcome Signal).IsTame catchFaults)
      (hfault : (Outcome.stopped why' n : Outcome Signal).fault? =
        (Outcome.stopped why n : Outcome Signal).fault?) :
      Settled catchFaults (.stopped why n) (.stopped why' n)

theorem Eval.settled (catchFaults : Bool) (span : Span) (p : Eval Signal) (m : Machine) :
    Settled catchFaults (p m) (Eval.settle catchFaults span p m) := by
  unfold Eval.settle
  cases p m with
  | done signal n => exact .done
  | stopped why n =>
      cases why with
      | thrown t => exact .thrown
      | exhausted => exact .stopped (fun h => h) (fun h => h) rfl
      | outOfFuel => exact .stopped (fun h => h) (fun h => h) rfl
      | failed f =>
          have hfault (site : Span) (frames : List Frame) :
              ((f.locate span).attachTrace site frames).fault = f.fault :=
            (Failure.fault_attachTrace ..).trans (f.fault_locate span)
          simp only [hfault]
          split
          · next hcaught =>
              refine .caught ?_ rfl
              simpa [Fault.IsCaught] using hcaught
          · next hcaught =>
              have hwild : ¬f.fault.IsCaught catchFaults := by
                simpa [Fault.IsCaught] using hcaught
              refine .stopped hwild ?_ ?_
              · simpa only [Outcome.IsTame, hfault] using hwild
              · simp only [Outcome.fault?, hfault]

end Outcomes

section Recorded

variable {α β : Type}

namespace Recorded

theorem bind_done
    {c : Recorded α}
    {f : α → Recorded β}
    {m n : Machine}
    {a : α}
    (h : (c m).1 = .done a n) :
    (c >>= f) m = ((f a n).1, (c m).2 ++ (f a n).2) := by
  have hc : c m = (.done a n, (c m).2) := Prod.ext h rfl
  exact congrArg (andThen f) hc

theorem bind_stopped
    {c : Recorded α}
    {f : α → Recorded β}
    {m n : Machine}
    {why : Interruption}
    (h : (c m).1 = .stopped why n) :
    (c >>= f) m = (.stopped why n, (c m).2) := by
  have hc : c m = (.stopped why n, (c m).2) := Prod.ext h rfl
  exact congrArg (andThen f) hc

/-- Whatever stops a computation for good, the first part of it did not do so. -/
theorem isTame_of_bind
    {c : Recorded α}
    {f : α → Recorded β}
    {m : Machine}
    {catchFaults : Bool}
    (h : ((c >>= f) m).1.IsTame catchFaults) :
    (c m).1.IsTame catchFaults := by
  cases ho : (c m).1 with
  | done a n => trivial
  | stopped why n =>
      rw [bind_stopped ho] at h
      exact (Outcome.isTame_stopped ..).mp h

end Recorded

end Recorded

namespace Accounted

variable {α β : Type} {catchFaults strict : Bool} {m : Machine}

/-- Less is asked of the journal. -/
theorem weaken
    {o : Outcome α}
    {journal : List Event}
    (h : Accounted catchFaults true m o journal) :
    Accounted catchFaults strict m o journal :=
  ⟨h.growing, h.course, fun _ => h.orderly rfl⟩

theorem done (a : α) (m : Machine) :
    Accounted catchFaults strict m (.done a m) [] where
  growing := .done (.refl m)
  course := ⟨[], m, rfl, .refl m, fun stack => ⟨stack, .nil, fun _ => rfl⟩⟩
  orderly _ _ := .nil

/-- An operation that runs no code. -/
theorem own
    {c : Eval α}
    (h : m.Grows (c m).machine) :
    Accounted catchFaults strict m (Recorded.own c m).1 (Recorded.own c m).2 where
  growing := by
    simp only [Recorded.own, Outcome.raised]
    cases (c m).fault? with
    | none => exact .done h
    | some fault => exact .step h (.done (.refl _))
  course := ⟨[], (c m).machine, rfl, .refl _, fun stack => ⟨stack, .nil, fun _ => rfl⟩⟩
  orderly _ _ := by
    simp only [Recorded.own, Outcome.raised]
    cases (c m).fault? with
    | none => exact .nil
    | some fault => exact .plain trivial .nil

/-- Two computations one after the other. -/
theorem bind
    {c : Recorded α}
    {f : α → Recorded β}
    (hc : Accounted catchFaults strict m (c m).1 (c m).2)
    (hf : ∀ a n, (c m).1 = .done a n →
      Accounted catchFaults strict n (f a n).1 (f a n).2) :
    Accounted catchFaults strict m ((c >>= f) m).1 ((c >>= f) m).2 := by
  cases ho : (c m).1 with
  | done a n =>
      rw [Recorded.bind_done ho]
      rw [ho] at hc
      have hf := hf a n ho
      refine ⟨hc.growing.append hf.growing, ?_, fun hstrict htame => ?_⟩
      · obtain ⟨before, n', hbefore, -, hcourse⟩ := hc.course
        obtain ⟨after, last, hafter, hlast, hcourse'⟩ := hf.course
        refine ⟨before ++ after, last, ?_, hlast, fun stack => ?_⟩
        · rw [hbefore, hafter, Outcome.raised_done, List.append_nil, List.append_assoc]
        · obtain ⟨middle, hmiddle, heq⟩ := hcourse stack
          obtain rfl := heq trivial
          obtain ⟨stack', hstack', htame⟩ := hcourse' middle
          exact ⟨stack', hmiddle.append hstack', htame⟩
      · exact (hc.orderly hstrict trivial).append (hf.orderly hstrict htame)
  | stopped why n =>
      rw [Recorded.bind_stopped ho]
      rw [ho] at hc
      refine ⟨hc.growing, ?_, fun hstrict htame => ?_⟩
      · obtain ⟨before, n', hbefore, hstore, hcourse⟩ := hc.course
        refine ⟨before, n', by rw [hbefore, Outcome.raised_stopped], hstore, fun stack => ?_⟩
        obtain ⟨stack', hstack', htame⟩ := hcourse stack
        exact ⟨stack', hstack', fun h => htame ((Outcome.isTame_stopped ..).mp h)⟩
      · exact hc.orderly hstrict ((Outcome.isTame_stopped ..).mp htame)

/-- A computation in a scope or call of its own. -/
theorem around
    {inward : Machine → Machine}
    {outward : Machine → Machine → Machine}
    {c : Recorded α}
    (hc : Accounted catchFaults strict (inward m) (c (inward m)).1 (c (inward m)).2)
    (hin : m.Grows (inward m))
    (hout : ∀ n : Machine, n.SameStore (outward m n)) :
    Accounted catchFaults strict m (Recorded.around inward outward c m).1
      (Recorded.around inward outward c m).2 := by
  simp only [Recorded.around]
  refine ⟨?_, ?_, fun hstrict htame => ?_⟩
  · rw [Outcome.machine_onMachine]
    have hend := hc.growing.after hin
    simpa using hend.append (.done (hout _).grows)
  · obtain ⟨before, n, hbefore, hstore, hcourse⟩ := hc.course
    refine ⟨before, n, by rw [hbefore, Outcome.raised_onMachine], ?_, fun stack => ?_⟩
    · rw [Outcome.machine_onMachine]
      exact hstore.trans (hout _)
    · obtain ⟨stack', hstack', htame⟩ := hcourse stack
      exact ⟨stack', hstack', fun h => htame ((Outcome.isTame_onMachine ..).mp h)⟩
  · exact hc.orderly hstrict ((Outcome.isTame_onMachine ..).mp htame)

theorem locating
    {c : Recorded α}
    (span : Span)
    (hc : Accounted catchFaults strict m (c m).1 (c m).2) :
    Accounted catchFaults strict m (Recorded.locating span c m).1
      (Recorded.locating span c m).2 := by
  simp only [Recorded.locating]
  obtain h | ⟨f, f', n, ho, h, hfault⟩ := Eval.locating_cases span (fun m => (c m).1) m
  · rw [h]
    exact hc
  · rw [h]
    rw [ho] at hc
    obtain ⟨before, n', hbefore, hstore, hcourse⟩ := hc.course
    have hraised : (Outcome.stopped (.failed f') n : Outcome α).raised n' =
        (Outcome.stopped (.failed f) n : Outcome α).raised n' := by
      simp only [Outcome.raised, Outcome.fault?, hfault]
    have htame : (Outcome.stopped (.failed f') n : Outcome α).IsTame catchFaults ↔
        (Outcome.stopped (.failed f) n : Outcome α).IsTame catchFaults := by
      simp only [Outcome.IsTame, hfault]
    refine ⟨hc.growing, ⟨before, n', by rw [hbefore, hraised], hstore, fun stack => ?_⟩,
      fun hstrict h => hc.orderly hstrict (htame.mp h)⟩
    obtain ⟨stack', hstack', heq⟩ := hcourse stack
    exact ⟨stack', hstack', fun h => heq (htame.mp h)⟩

/-- The beginning of something that is no statement. -/
theorem starting
    {c : Recorded α}
    {q : Question}
    (hq : ∀ s, q ≠ .execute s)
    (hc : Accounted catchFaults strict m (c m).1 (c m).2) :
    Accounted catchFaults strict m (Recorded.starting q c m).1 (Recorded.starting q c m).2 := by
  have hneutral : (Event.began q m).IsNeutral := by
    cases q with
    | execute s => exact absurd rfl (hq s)
    | evaluate | run => trivial
  have hplain : (Event.began q m).IsPlain := by
    cases q with
    | execute s => exact absurd rfl (hq s)
    | evaluate | run => trivial
  obtain ⟨before, n, hbefore, hstore, hcourse⟩ := hc.course
  refine ⟨.step (.refl m) hc.growing, ⟨.began q m :: before, n, ?_, hstore, fun stack => ?_⟩,
    fun hstrict htame => .plain hplain (hc.orderly hstrict htame)⟩
  · simp only [Recorded.starting, hbefore, List.cons_append]
  · obtain ⟨stack', hstack', htame⟩ := hcourse stack
    exact ⟨stack', .neutral hneutral hstack', htame⟩

/-- A clause of a `try` statement. Its own events make sense as part of the statement only. -/
theorem inClause
    {c : Recorded Signal}
    (clause : Clause)
    (statements : List Stmt)
    (hc : Accounted catchFaults strict m (c m).1 (c m).2) :
    Accounted catchFaults false m (Recorded.inClause clause statements c m).1
      (Recorded.inClause clause statements c m).2 := by
  obtain ⟨before, n, hbefore, hstore, hcourse⟩ := hc.course
  have hgrowing := hc.growing
  simp only [Recorded.inClause]
  cases ho : (c m).1 with
  | done signal n' =>
      rw [ho] at hbefore hgrowing hcourse
      obtain rfl : (c m).2 = before := by simpa using hbefore
      refine ⟨.step (.refl m) (hgrowing.append (.step (.refl _) (.done (.refl _)))), ?_, nofun⟩
      refine ⟨_, n', (List.append_nil _).symm, .refl _, fun stack => ?_⟩
      obtain ⟨stack', hstack', htame⟩ := hcourse stack
      exact ⟨stack', .neutral trivial (hstack'.append (.neutral trivial .nil)), htame⟩
  | stopped why n' =>
      rw [ho] at hbefore hgrowing hstore hcourse
      refine ⟨?_, ?_, nofun⟩
      · rw [Recorded.closing, List.append_nil]
        exact .step (.refl m) hgrowing
      · refine ⟨.opened clause statements m :: before, n, ?_, hstore, fun stack => ?_⟩
        · simp only [Recorded.closing, List.append_nil, hbefore, List.cons_append]
        · obtain ⟨stack', hstack', htame⟩ := hcourse stack
          exact ⟨stack', .neutral trivial hstack', htame⟩

end Accounted

section Statements

variable {catchFaults strict : Bool} {m : Machine} {s : Stmt}

theorem Settled.growing
    {o o' : Outcome Signal}
    {journal : List Event}
    (h : Settled catchFaults o o')
    (hgrowing : Growing m journal o.machine) :
    Growing m (.began (.execute s) m :: (journal ++ Recorded.ending s o')) o'.machine := by
  refine .step (.refl m) (hgrowing.append ?_)
  cases h with
  | done => exact .step (.refl _) (.done (.refl _))
  | thrown => exact .step (.refl _) (.done (.refl _))
  | caught => exact .step (.refl _) (.done (.refl _))
  | stopped => exact .done (.refl _)

theorem Settled.isTame_iff {o o' : Outcome Signal} (h : Settled catchFaults o o') :
    o'.IsTame catchFaults ↔ o.IsTame catchFaults := by
  cases h with
  | done => exact .rfl
  | thrown => exact .rfl
  | caught hcaught => exact iff_of_true trivial hcaught
  | stopped hwild hwild' => exact iff_of_false hwild' hwild

theorem Settled.done_of_isTame
    {o o' : Outcome Signal}
    (h : Settled catchFaults o o')
    (htame : o'.IsTame catchFaults) :
    ∃ signal n, o' = .done signal n := by
  cases h with
  | @done signal n => exact ⟨signal, n, rfl⟩
  | @thrown t n => exact ⟨.thrown t, n, rfl⟩
  | @caught f t n => exact ⟨.thrown t, n, rfl⟩
  | stopped _ hwild' => exact absurd htame hwild'

/-- If a fault is caught, this is where the next event is. -/
theorem Settled.course
    {o o' : Outcome Signal}
    {before : List Event}
    {n : Machine}
    (h : Settled catchFaults o o')
    (hstore : n.SameStore o.machine)
    (hcourse : ∀ stack, ∃ stack', Course catchFaults stack before stack' ∧
      (o.IsTame catchFaults → stack' = stack)) :
    ∃ before' n',
      .began (.execute s) m :: (before ++ o.raised n ++ Recorded.ending s o') =
        before' ++ o'.raised n' ∧
      n'.SameStore o'.machine ∧
      ∀ stack, ∃ stack', Course catchFaults stack before' stack' ∧
        (o'.IsTame catchFaults → stack' = stack) := by
  -- a statement that has ended is open no longer
  have hended (signal : Signal) (last : Machine) (htame : o.IsTame catchFaults)
      (stack : List Stmt) :
      Course catchFaults stack
        (.began (.execute s) m :: (before ++ [.ended s signal last])) stack := by
    obtain ⟨stack', hstack', heq⟩ := hcourse (s :: stack)
    obtain rfl := heq htame
    exact .began (hstack'.append (.ended .nil))
  cases h with
  | @done signal last =>
      refine ⟨_, last, ?_, .refl _,
        fun stack => ⟨stack, hended signal last trivial stack, fun _ => rfl⟩⟩
      simp [Recorded.ending]
  | @thrown t last =>
      refine ⟨_, last, ?_, .refl _,
        fun stack => ⟨stack, hended (.thrown t) last trivial stack, fun _ => rfl⟩⟩
      simp [Recorded.ending, Outcome.raised, Outcome.fault?]
  | @caught f t last hcaught hpayload =>
      refine ⟨.began (.execute s) m ::
        (before ++ [.raised f.fault n, .ended s (.thrown t) last]), last, ?_, .refl _,
        fun stack => ⟨stack, ?_, fun _ => rfl⟩⟩
      · simp [Recorded.ending, Outcome.raised, Outcome.fault?]
      · obtain ⟨stack', hstack', heq⟩ := hcourse (s :: stack)
        obtain rfl := heq hcaught
        exact .began (hstack'.append (.converted hcaught hpayload hstore .nil))
  | @stopped why why' last hwild hwild' hfault =>
      refine ⟨.began (.execute s) m :: before, n, ?_, hstore, fun stack => ?_⟩
      · simp [Recorded.ending, Outcome.raised, hfault]
      · obtain ⟨stack', hstack', -⟩ := hcourse (s :: stack)
        exact ⟨stack', .began hstack', fun htame => absurd htame hwild'⟩

/-- A whole statement, provided that its clauses are in order. -/
theorem Accounted.statement
    {c : Recorded Signal}
    (hc : Accounted catchFaults strict m (c m).1 (c m).2)
    (horderly : (c m).1.IsTame catchFaults →
      Orderly (Recorded.starting (.execute s) (Recorded.settle catchFaults s c) m).2) :
    Accounted catchFaults true m
      (Recorded.starting (.execute s) (Recorded.settle catchFaults s c) m).1
      (Recorded.starting (.execute s) (Recorded.settle catchFaults s c) m).2 := by
  have hsettled := Eval.settled catchFaults s.span (fun m => (c m).1) m
  obtain ⟨before, n, hbefore, hstore, hcourse⟩ := hc.course
  refine ⟨hsettled.growing hc.growing, ?_, fun _ htame => horderly (hsettled.isTame_iff.mp htame)⟩
  simp only [Recorded.starting, Recorded.settle, hbefore]
  exact hsettled.course hstore hcourse

/-- A statement without clauses is in order if what it consists of is. -/
theorem Accounted.plainStatement
    {c : Recorded Signal}
    (hc : Accounted catchFaults true m (c m).1 (c m).2)
    (hplain : ∀ body handler cleanup span, s ≠ .tryBlock body handler cleanup span) :
    Accounted catchFaults true m
      (Recorded.starting (.execute s) (Recorded.settle catchFaults s c) m).1
      (Recorded.starting (.execute s) (Recorded.settle catchFaults s c) m).2 := by
  refine hc.statement fun htame => .plain ?_ ((hc.orderly rfl htame).append ?_)
  · cases s with
    | tryBlock body handler cleanup span => exact absurd rfl (hplain body handler cleanup span)
    | _ => trivial
  · unfold Recorded.ending
    split
    · refine .plain ?_ .nil
      cases s with
      | tryBlock body handler cleanup span => exact absurd rfl (hplain body handler cleanup span)
      | _ => trivial
    · exact .nil

end Statements

end Lox
