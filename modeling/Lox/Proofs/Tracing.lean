import Lox.Proofs.Elementary
import Lox.Proofs.Journal.Accounts
import Mathlib.Data.List.Induction

/-!
# Where traces come from

A fault gets its trace from the innermost statement that is open when it is raised, and a thrown
value from the statement that throws it. What a trace lists are the calls that were active when this
statement began, each of which was entered by a call expression. `Traced` says so of a computation,
with what happened before it and its journal. There is one rule for each way in which computations
with journals are built.
-/

namespace Lox

section Activations

/-- The statements that are open after an event, with the machines on which they began. -/
def Event.activeAfter (active : List (Stmt × Machine)) : Event → List (Stmt × Machine)
  | began (.execute s) m => (s, m) :: active
  | ended .. => active.tail
  | _ => active

/-- The statements that were begun in the journal and have not ended, each with the machine on which
it began, the innermost one first. -/
def openActivations (journal : List Event) : List (Stmt × Machine) :=
  journal.foldl (fun active e => e.activeAfter active) []

theorem openActivations_concat (journal : List Event) (e : Event) :
    openActivations (journal ++ [e]) = e.activeAfter (openActivations journal) := by
  simp only [openActivations, List.foldl_append, List.foldl_cons, List.foldl_nil]

/-- An open statement was begun. -/
theorem began_of_open
    {journal : List Event}
    {s : Stmt}
    {m : Machine}
    (h : (s, m) ∈ openActivations journal) :
    ∃ before later, journal = before ++ .began (.execute s) m :: later := by
  induction journal using List.reverseRecOn with
  | nil => cases h
  | append_singleton journal e ih =>
      have hbefore (h : (s, m) ∈ openActivations journal) :
          ∃ before later, journal ++ [e] = before ++ .began (.execute s) m :: later := by
        obtain ⟨before, later, rfl⟩ := ih h
        exact ⟨before, later ++ [e], by simp⟩
      rw [openActivations_concat] at h
      cases e with
      | began q n =>
          cases q with
          | execute s' =>
              rcases List.mem_cons.mp h with heq | h
              · cases heq
                exact ⟨journal, [], rfl⟩
              · exact hbefore h
          | evaluate | run => exact hbefore h
      | ended => exact hbefore (List.mem_of_mem_tail h)
      | opened | closed | raised => exact hbefore h

end Activations

section Calls

/-- The call expression, when it is evaluated on the machine, comes to enter a call with the
frame. -/
def Limits.Enters
    (limits : Limits)
    (callee : Expr)
    (arguments : List Expr)
    (span : Span)
    (m : Machine)
    (frame : Frame) :
    Prop :=
  ∃ room f m₁ vs n,
    let g := Evaluator.ofRoom limits room
    g.evaluate callee m = .done f m₁ ∧
    Eval.evaluateAll g arguments m₁ = .done vs n ∧
    frame = ⟨Eval.calleeName n f, some span⟩ ∧
    Eval.callValue limits g f vs (some span) n = Eval.inCall frame (Eval.invoke g f vs) n

/-- Each of the active calls was entered by a call expression that was begun in the journal while
the calls further out were active. -/
inductive Entered (limits : Limits) (journal : List Event) : List Frame → Prop
  | outside : Entered limits journal []
  | call
      {callee : Expr}
      {arguments : List Expr}
      {span : Span}
      {m : Machine}
      {frame : Frame}
      {outer : List Frame}
      (hbegan : .began (.evaluate (.call callee arguments span)) m ∈ journal)
      (hframes : m.frames = outer)
      (henters : limits.Enters callee arguments span m frame)
      (houter : Entered limits journal outer) :
      Entered limits journal (frame :: outer)

theorem Entered.append
    {limits : Limits} {journal : List Event} {frames : List Frame}
    (h : Entered limits journal frames)
    (later : List Event) :
    Entered limits (journal ++ later) frames := by
  induction h with
  | outside => exact .outside
  | call hbegan hframes henters _ ih =>
      exact .call (List.mem_append_left _ hbegan) hframes henters ih

/-- Every call that was entered has the place of a call expression. -/
theorem Entered.callSite
    {limits : Limits} {journal : List Event} {frames : List Frame}
    (h : Entered limits journal frames) :
    ∀ frame ∈ frames, ∃ span, frame.callSite = some span := by
  induction h with
  | outside => nofun
  | @call _ _ span _ _ _ _ _ henters _ ih =>
      intro frame hframe
      rcases List.mem_cons.mp hframe with rfl | hframe
      · obtain ⟨room, f, m₁, vs, n, -, -, rfl, -⟩ := henters
        exact ⟨span, rfl⟩
      · exact ih frame hframe

/-- At every event of the journal, the active calls were entered in what had happened before. -/
def AllEntered (limits : Limits) : List Event → List Event → Prop
  | _, [] => True
  | before, e :: journal =>
      Entered limits before e.machine.frames ∧ AllEntered limits (before ++ [e]) journal

theorem AllEntered.append
    {limits : Limits} {before journal later : List Event}
    (h : AllEntered limits before journal)
    (hlater : AllEntered limits (before ++ journal) later) :
    AllEntered limits before (journal ++ later) := by
  induction journal generalizing before with
  | nil => simpa using hlater
  | cons e journal ih =>
      refine ⟨h.1, ih h.2 ?_⟩
      simpa using hlater

theorem AllEntered.at
    {limits : Limits} {before journal later : List Event} {e : Event}
    (h : AllEntered limits before (journal ++ e :: later)) :
    Entered limits (before ++ journal) e.machine.frames := by
  induction journal generalizing before with
  | nil => simpa using h.1
  | cons e' journal ih => simpa using ih h.2

end Calls

section Origins

/-- The trace lists the calls that were active when the innermost open statement began, and that it
had reached `span`. -/
def TracedAt
    (journal : List Event)
    (s : Stmt)
    (span : Span)
    (trace : List TraceEntry) :
    Prop :=
  ∃ m outer, openActivations journal = (s, m) :: outer ∧ trace = stackTrace (some span) m.frames

/-- The value was thrown by a `throw` statement, or a statement ended with it because a fault had
been raised. In either case the trace is that of the statement. -/
def Thrown.HasOrigin (journal : List Event) (t : Thrown) : Prop :=
  ∃ before s n later, journal = before ++ .ended s (.thrown t) n :: later ∧
    TracedAt before s t.span t.trace ∧
    ((∃ value, s = .throwValue value t.span) ∨
      ∃ earlier fault n', before = earlier ++ [.raised fault n'] ∧
        t.payload = .string fault.message)

theorem Thrown.HasOrigin.append
    {journal : List Event} {t : Thrown}
    (h : t.HasOrigin journal)
    (later : List Event) :
    t.HasOrigin (journal ++ later) := by
  obtain ⟨before, s, n, rest, rfl, htraced, hcause⟩ := h
  exact ⟨before, s, n, rest ++ later, by simp, htraced, hcause⟩

/-- The fault was raised last. Either no statement has traced it yet, since none was begun that has
not ended, or the innermost one has, and did not catch it. -/
inductive Failure.Raised (catchFaults : Bool) (before journal : List Event) (f : Failure) : Prop
  | bare
      (inside : List Event)
      (n : Machine)
      (hjournal : journal = inside ++ [.raised f.fault n])
      (hopen : openActivations (before ++ inside) = openActivations before)
      (htrace : f.trace = [])
  | traced
      (inside : List Event)
      (n : Machine)
      (s : Stmt)
      (span : Span)
      (caption : String)
      (hjournal : journal = inside ++ [.raised f.fault n])
      (hcaught : ¬f.fault.IsCaught catchFaults)
      (hlabel : f.label = some (span, caption))
      (htraced : TracedAt (before ++ inside) s span f.trace)

variable {α β : Type}

/-- What is to be said of the end of a computation after what has happened `before`: it leaves open
the statements that were open, and what was thrown has an origin. -/
def Outcome.HasOrigin
    (catchFaults : Bool)
    (carried : α → Option Thrown)
    (before journal : List Event) :
    Outcome α → Prop
  | done a _ =>
      openActivations (before ++ journal) = openActivations before ∧
        ∀ t ∈ carried a, t.HasOrigin (before ++ journal)
  | stopped (.thrown t) _ =>
      openActivations (before ++ journal) = openActivations before ∧
        t.HasOrigin (before ++ journal)
  | stopped (.failed f) _ => f.Raised catchFaults before journal
  | stopped .exhausted _ => True
  | stopped .outOfFuel _ => True

section Failures

theorem stackTrace_ne_nil (site : Option Span) (frames : List Frame) :
    stackTrace site frames ≠ [] := by
  cases frames <;> nofun

/-- A statement adds nothing to what a statement further in has settled. -/
theorem Failure.settle_traced
    {f : Failure}
    {label : Span × String}
    (hlabel : f.label = some label)
    (htrace : f.trace ≠ [])
    (span site : Span)
    (frames : List Frame) :
    (f.locate span).attachTrace site frames = f := by
  have hsame : f.locate span = f := by
    rw [Failure.locate, hlabel]
  rw [hsame, Failure.attachTrace, if_neg (by simpa using htrace)]

/-- The innermost statement adds a label, if there is none, and the trace for the label. -/
theorem Failure.settle_bare
    {f : Failure}
    (htrace : f.trace = [])
    (span : Span)
    (frames : List Frame) :
    ∃ site caption, (f.locate span).label = some (site, caption) ∧
      (f.locate span).attachTrace site frames =
        { f.locate span with trace := stackTrace (some site) frames } := by
  have hbare : (f.locate span).trace = [] := by
    unfold Failure.locate
    split <;> exact htrace
  have hattach (site : Span) :
      (f.locate span).attachTrace site frames =
        { f.locate span with trace := stackTrace (some site) frames } := by
    rw [Failure.attachTrace, if_pos (by simp [hbare])]
  cases hlabel : f.label with
  | some label =>
      refine ⟨label.1, label.2, ?_, hattach label.1⟩
      rw [Failure.locate, hlabel]
      exact hlabel
  | none =>
      refine ⟨span, f.fault.message, ?_, hattach span⟩
      rw [Failure.locate, hlabel]

end Failures

section Endings

variable {catchFaults : Bool} {carried : α → Option Thrown} {carried' : β → Option Thrown}
variable {before first journal : List Event} {why : Interruption} {m n : Machine}

/-- What happens first, and leaves open the statements that were open, can be counted to what
happened before or to the journal. -/
theorem Failure.Raised.after
    {f : Failure}
    (hopen : openActivations (before ++ first) = openActivations before)
    (h : f.Raised catchFaults (before ++ first) journal) :
    f.Raised catchFaults before (first ++ journal) := by
  cases h with
  | bare inside n hjournal hinside htrace =>
      refine .bare (first ++ inside) n (by simp [hjournal]) ?_ htrace
      rw [← List.append_assoc, hinside, hopen]
  | traced inside n s span caption hjournal hcaught hlabel htraced =>
      refine .traced (first ++ inside) n s span caption (by simp [hjournal]) hcaught hlabel ?_
      rwa [← List.append_assoc]

theorem Outcome.HasOrigin.after
    {o : Outcome α}
    (hopen : openActivations (before ++ first) = openActivations before)
    (h : o.HasOrigin catchFaults carried (before ++ first) journal) :
    o.HasOrigin catchFaults carried before (first ++ journal) := by
  cases o with
  | done a n =>
      simp only [HasOrigin, List.append_assoc, hopen] at h ⊢
      exact h
  | stopped why n =>
      cases why with
      | thrown t =>
          simp only [HasOrigin, List.append_assoc, hopen] at h ⊢
          exact h
      | failed f => exact Failure.Raised.after hopen h
      | exhausted => trivial
      | outOfFuel => trivial

theorem Failure.Raised.locate
    {f : Failure}
    (h : f.Raised catchFaults before journal)
    (span : Span) :
    (f.locate span).Raised catchFaults before journal := by
  cases hlabel : f.label with
  | some label =>
      have hsame : f.locate span = f := by
        rw [Failure.locate, hlabel]
      rwa [hsame]
  | none =>
      cases h with
      | bare inside n hjournal hinside htrace =>
          refine .bare inside n (by rwa [f.fault_locate]) hinside ?_
          rw [Failure.locate, hlabel]
          exact htrace
      | traced inside n s span' caption hjournal hcaught hlabel' htraced =>
          rw [hlabel] at hlabel'
          cases hlabel'

/-- What stops a computation stops what follows it with the same origin. -/
theorem Outcome.HasOrigin.stopped
    (h : (Outcome.stopped why m : Outcome α).HasOrigin catchFaults carried before journal) :
    (Outcome.stopped why n : Outcome β).HasOrigin catchFaults carried' before journal := by
  cases why with
  | thrown t => exact h
  | failed f => exact h
  | exhausted => trivial
  | outOfFuel => trivial

theorem Outcome.HasOrigin.onMachine
    {o : Outcome α}
    (h : o.HasOrigin catchFaults carried before journal)
    (change : Machine → Machine) :
    (o.onMachine change).HasOrigin catchFaults carried before journal := by
  cases o with
  | done a n => exact h
  | stopped why n => exact h.stopped

end Endings

/-- What is to be said of a computation that starts on the machine `m` after what has happened
`before`, ends with the outcome `o` and keeps the journal. The result may carry a thrown value. -/
structure Traced
    (limits : Limits)
    (carried : α → Option Thrown)
    (before : List Event)
    (m : Machine)
    (o : Outcome α)
    (journal : List Event) :
    Prop where
  frames : o.machine.frames = m.frames
  entered : AllEntered limits before journal
  ending : o.HasOrigin limits.catchFaults carried before journal

/-- The thrown value that a signal carries. -/
def Signal.thrown? : Signal → Option Thrown
  | thrown t => some t
  | normal | returned _ | broke | continued => none

/-- Whatever happens after `before` on the machine `m`, the computation is traced. -/
def Recorded.IsTraced
    (limits : Limits)
    (carried : α → Option Thrown)
    (before : List Event)
    (m : Machine)
    (c : Recorded α) :
    Prop :=
  Traced limits carried before m (c m).1 (c m).2

end Origins

namespace Traced

variable {limits : Limits} {before journal : List Event} {s : Stmt} {m n : Machine}

variable
  (hm : Entered limits before m.frames)
  (hentered : AllEntered limits (before ++ [.began (.execute s) m]) journal)
  (hframes : n.frames = m.frames)
include hm hentered hframes

/-- The statement that was begun before the journal ends with a signal. -/
theorem ended
    {signal : Signal}
    (hopen : openActivations (before ++ [.began (.execute s) m] ++ journal) =
      (s, m) :: openActivations before)
    (horigin : ∀ t ∈ signal.thrown?,
      t.HasOrigin (before ++ [.began (.execute s) m] ++ journal ++ [.ended s signal n])) :
    Traced limits Signal.thrown? before m (.done signal n)
      (.began (.execute s) m :: (journal ++ [.ended s signal n])) := by
  have hlast : Entered limits (before ++ [.began (.execute s) m] ++ journal) n.frames :=
    hframes ▸ (hm.append _).append _
  have hjournal : before ++ .began (.execute s) m :: (journal ++ [.ended s signal n]) =
      before ++ [.began (.execute s) m] ++ journal ++ [.ended s signal n] := by
    simp
  refine ⟨hframes, ⟨hm, hentered.append ⟨hlast, trivial⟩⟩, ?_, fun t ht => ?_⟩
  · rw [hjournal, openActivations_concat, hopen]
    rfl
  · rw [hjournal]
    exact horigin t ht

/-- The statement that was begun before the journal is stopped. -/
theorem stopped
    {why : Interruption}
    (hending : (Outcome.stopped why n : Outcome Signal).HasOrigin limits.catchFaults
      Signal.thrown? before (.began (.execute s) m :: journal)) :
    Traced limits Signal.thrown? before m (.stopped why n)
      (.began (.execute s) m :: (journal ++ [])) := by
  rw [List.append_nil]
  exact ⟨hframes, ⟨hm, hentered⟩, hending⟩

/-- The statement that was begun before the journal settles a fault that no statement further in has
traced: the statement ends with it or is stopped. -/
theorem settled_bare
    {f : Failure}
    {inside : List Event}
    {n' : Machine}
    (hjournal : journal = inside ++ [.raised f.fault n'])
    (hopen : openActivations (before ++ [.began (.execute s) m] ++ inside) =
      (s, m) :: openActivations before)
    (htrace : f.trace = []) :
    let o := Eval.settle limits.catchFaults s.span (Eval.stop (.failed f)) n
    Traced limits Signal.thrown? before m o
      (.began (.execute s) m :: (journal ++ Recorded.ending s o)) := by
  obtain ⟨span, caption, hlabel, hsettled⟩ := Failure.settle_bare htrace s.span n.frames
  have hsite : ((f.locate s.span).label.map (·.1)).getD s.span = span := by
    rw [hlabel]
    rfl
  have hactive : openActivations (before ++ [.began (.execute s) m] ++ journal) =
      (s, m) :: openActivations before := by
    rw [hjournal, ← List.append_assoc, openActivations_concat]
    exact hopen
  have htraced : stackTrace (some span) n.frames = stackTrace (some span) m.frames :=
    congrArg _ hframes
  simp only [Eval.settle, Eval.stop, hsite, hsettled, f.fault_locate]
  split
  · refine ended hm hentered hframes hactive fun t ht => ?_
    obtain rfl := Option.some.inj ht
    refine ⟨_, s, n, [], rfl, ⟨m, openActivations before, hactive, htraced⟩,
      .inr ⟨before ++ [.began (.execute s) m] ++ inside, f.fault, n', ?_, rfl⟩⟩
    rw [hjournal, List.append_assoc _ inside]
  · next hcaught =>
      refine stopped hm hentered hframes (.traced (.began (.execute s) m :: inside) n' s span caption
        ?_ ?_ hlabel ⟨m, openActivations before, ?_, htraced⟩)
      · simp [hjournal]
      · simpa [Fault.IsCaught, f.fault_locate] using hcaught
      · simpa using hopen

/-- The statement that was begun before the journal settles a fault that was raised last. -/
theorem settled
    {f : Failure}
    (hraised : f.Raised limits.catchFaults (before ++ [.began (.execute s) m]) journal) :
    let o := Eval.settle limits.catchFaults s.span (Eval.stop (.failed f)) n
    Traced limits Signal.thrown? before m o
      (.began (.execute s) m :: (journal ++ Recorded.ending s o)) := by
  cases hraised with
  | bare inside n' hjournal hinside htrace =>
      have hopen := hinside.trans (openActivations_concat ..)
      exact settled_bare hm hentered hframes hjournal hopen htrace
  | traced inside n' s' span caption hjournal hcaught hlabel htraced =>
      -- a statement further in has settled it
      have htrace : f.trace ≠ [] := by
        obtain ⟨m', outer, -, heq⟩ := htraced
        exact heq ▸ stackTrace_ne_nil _ _
      simp only [Eval.settle, Eval.stop, Failure.settle_traced hlabel htrace]
      rw [if_neg (by simpa [Fault.IsCaught] using hcaught)]
      exact stopped hm hentered hframes (.traced (.began (.execute s) m :: inside) n' s' span caption
        (by simp [hjournal]) hcaught hlabel (by simpa using htraced))

end Traced

namespace Recorded.IsTraced

variable {α β : Type} {limits : Limits} {carried : α → Option Thrown} {carried' : β → Option Thrown}
variable {before : List Event} {m : Machine}

section Sequences

theorem pure {a : α} (ha : ∀ t ∈ carried a, t.HasOrigin before) :
    IsTraced limits carried before m (Pure.pure a) where
  frames := rfl
  entered := trivial
  ending :=
    ⟨congrArg openActivations (List.append_nil before), fun t ht => (ha t ht).append []⟩

/-- A result that carries no thrown value. -/
theorem plain {a : α} (ha : carried a = none) :
    IsTraced limits carried before m (Pure.pure a) :=
  pure fun t ht => by
    rw [ha] at ht
    cases ht

/-- An elementary operation. -/
theorem own
    {c : Eval α}
    (h : c.Elementary Machine.SameFrames)
    (hcarried : ∀ a n, c m = .done a n → carried a = none)
    (hm : Entered limits before m.frames) :
    IsTraced limits carried before m (.own c) where
  frames := h.steps m
  entered := by
    simp only [Recorded.own, Outcome.raised]
    cases (c m).fault? with
    | none => exact trivial
    | some fault =>
        have hframes : (c m).machine.frames = m.frames := h.steps m
        exact ⟨hframes.symm ▸ hm, trivial⟩
  ending := by
    simp only [Recorded.own]
    cases ho : c m with
    | done a n =>
        refine ⟨congrArg openActivations (List.append_nil before), fun t ht => ?_⟩
        rw [hcarried a n ho] at ht
        cases ht
    | stopped why n =>
        have hbare := h.bare m why n ho
        cases why with
        | thrown t => exact hbare.elim
        | exhausted => trivial
        | outOfFuel => trivial
        | failed f =>
            exact .bare [] n rfl (congrArg openActivations (List.append_nil before)) hbare.1

/-- An elementary operation that gives a value. -/
theorem ownValue
    {c : Eval α}
    (h : c.Elementary Machine.SameFrames)
    (hm : Entered limits before m.frames) :
    IsTraced limits (fun _ => none) before m (.own c) :=
  own h (fun _ _ _ => rfl) hm

/-- A look at the machine and what follows. -/
theorem ask
    {question : Machine → α}
    {f : α → Recorded β}
    (hf : IsTraced limits carried' before m (f (question m))) :
    IsTraced limits carried' before m (Recorded.own (Eval.ask question) >>= f) :=
  hf

theorem bind
    {c : Recorded α}
    {f : α → Recorded β}
    (hc : IsTraced limits carried before m c)
    (hm : Entered limits before m.frames)
    (hf : ∀ a n journal, c m = (.done a n, journal) → n.frames = m.frames →
      Entered limits (before ++ journal) n.frames →
      (∀ t ∈ carried a, t.HasOrigin (before ++ journal)) →
      IsTraced limits carried' (before ++ journal) n (f a)) :
    IsTraced limits carried' before m (c >>= f) := by
  obtain ⟨hframes, hentered, hending⟩ := hc
  cases ho : (c m).1 with
  | done a n =>
      rw [ho] at hframes hending
      obtain ⟨hopen, hcarried⟩ := hending
      have hn : n.frames = m.frames := hframes
      have hrest := hf a n (c m).2 (Prod.ext ho rfl) hn (hn ▸ hm.append _) hcarried
      rw [IsTraced, Recorded.bind_done ho]
      exact ⟨hrest.frames.trans hn, hentered.append hrest.entered, hrest.ending.after hopen⟩
  | stopped why n =>
      rw [ho] at hframes hending
      rw [IsTraced, Recorded.bind_stopped ho]
      exact ⟨hframes, hentered, hending.stopped⟩

end Sequences

section Brackets

/-- A computation in a scope or call of its own. -/
theorem around
    {inward : Machine → Machine}
    {outward : Machine → Machine → Machine}
    {c : Recorded α}
    (hc : IsTraced limits carried before (inward m) c)
    (hout : ∀ n, n.frames = (inward m).frames → (outward m n).frames = m.frames) :
    IsTraced limits carried before m (.around inward outward c) where
  frames := by
    simp only [Recorded.around, Outcome.machine_onMachine]
    exact hout _ hc.frames
  entered := hc.entered
  ending := hc.ending.onMachine (outward m)

theorem inNewScope
    {c : Recorded α}
    {parent : ScopeId}
    {bindings : List Binding}
    (hc : IsTraced limits carried before (m.enter parent bindings) c) :
    IsTraced limits carried before m (.inNewScope parent bindings c) := by
  refine hc.around fun n hn => hn.trans ?_
  rw [Machine.enter_eq]

theorem inInnerScope
    {c : Recorded α}
    {bindings : List Binding}
    (hc : IsTraced limits carried before (m.enter m.current bindings) c) :
    IsTraced limits carried before m (.inInnerScope bindings c) := by
  have haround : IsTraced limits carried before m
      (.around (fun m => m.enter m.current bindings) (fun m n => n.leave m.current) c) :=
    around hc fun n hn => hn.trans (by rw [Machine.enter_eq])
  exact haround

theorem inCall
    {c : Recorded α}
    {frame : Frame}
    (hc : IsTraced limits carried before (m.pushFrame frame) c) :
    IsTraced limits carried before m (.inCall frame c) :=
  hc.around fun _ hn => congrArg List.tail hn

/-- The beginning of something that is no statement. -/
theorem starting
    {c : Recorded α}
    {q : Question}
    (hq : ∀ s, q ≠ .execute s)
    (hm : Entered limits before m.frames)
    (hc : IsTraced limits carried (before ++ [.began q m]) m c) :
    IsTraced limits carried before m (.starting q c) := by
  have hopen : openActivations (before ++ [.began q m]) = openActivations before := by
    rw [openActivations_concat]
    cases q with
    | execute s => exact absurd rfl (hq s)
    | evaluate | run => rfl
  exact ⟨hc.frames, ⟨hm, hc.entered⟩, hc.ending.after hopen⟩

/-- Locating a fault does not change what is known of it. -/
theorem locating
    {c : Recorded α}
    (hc : IsTraced limits carried before m c)
    (span : Span) :
    IsTraced limits carried before m (.locating span c) := by
  obtain ⟨hframes, hentered, hending⟩ := hc
  simp only [IsTraced, Recorded.locating, Eval.locating]
  cases ho : (c m).1 with
  | done a n =>
      rw [ho] at hframes hending
      exact ⟨hframes, hentered, hending⟩
  | stopped why n =>
      rw [ho] at hframes hending
      cases why with
      | failed f => exact ⟨hframes, hentered, Failure.Raised.locate hending span⟩
      | thrown t => exact ⟨hframes, hentered, hending⟩
      | exhausted => exact ⟨hframes, hentered, trivial⟩
      | outOfFuel => exact ⟨hframes, hentered, trivial⟩

end Brackets

section Statements

variable {s : Stmt} {c : Recorded Signal} {carried : Signal → Option Thrown}

/-- A clause of a `try` statement. -/
theorem inClause
    (clause : Clause)
    (statements : List Stmt)
    (hm : Entered limits before m.frames)
    (hc : IsTraced limits carried (before ++ [.opened clause statements m]) m c) :
    IsTraced limits carried before m (.inClause clause statements c) := by
  have hopen : openActivations (before ++ [.opened clause statements m]) =
      openActivations before :=
    openActivations_concat ..
  obtain ⟨hframes, hentered, hending⟩ := hc
  simp only [IsTraced, Recorded.inClause]
  cases ho : (c m).1 with
  | done signal n =>
      rw [ho] at hframes hending
      have hn : n.frames = m.frames := hframes
      have hlast : Entered limits (before ++ [.opened clause statements m] ++ (c m).2) n.frames :=
        hn ▸ (hm.append _).append _
      have hclosed : (Outcome.done signal n).HasOrigin limits.catchFaults carried
          (before ++ [.opened clause statements m])
          ((c m).2 ++ [.closed clause statements signal n]) := by
        refine ⟨?_, fun t ht => ?_⟩
        · rw [← List.append_assoc, openActivations_concat]
          exact hending.1
        · rw [← List.append_assoc]
          exact (hending.2 t ht).append _
      exact ⟨hframes, ⟨hm, hentered.append ⟨hlast, trivial⟩⟩, hclosed.after hopen⟩
  | stopped why n =>
      rw [ho] at hframes hending
      rw [Recorded.closing, List.append_nil]
      exact ⟨hframes, ⟨hm, hentered⟩, hending.after hopen⟩

/-- A statement. What it consists of may end with the value that the statement itself throws. -/
theorem statement
    (hm : Entered limits before m.frames)
    (hc : IsTraced limits carried (before ++ [.began (.execute s) m]) m c)
    (hthrown : ∀ t n, (c m).1 = .done (.thrown t) n → carried (.thrown t) = some t ∨
      (∃ value, s = .throwValue value t.span) ∧ t.trace = stackTrace (some t.span) m.frames) :
    IsTraced limits Signal.thrown? before m
      (.starting (.execute s) (.settle limits.catchFaults s c)) := by
  obtain ⟨hframes, hentered, hending⟩ := hc
  cases ho : (c m).1 with
  | done signal n =>
      rw [ho] at hframes hending
      simp only [IsTraced, Recorded.starting, Recorded.settle, Eval.settle, ho]
      have hopen := hending.1.trans (openActivations_concat ..)
      refine .ended hm hentered hframes hopen fun t ht => ?_
      obtain rfl : signal = .thrown t := by
        cases signal with
        | thrown t' => exact congrArg Signal.thrown (Option.some.inj ht)
        | normal | returned | broke | continued => cases ht
      rcases hthrown t n ho with hcarried | ⟨hthrow, htrace⟩
      · exact (hending.2 t hcarried).append _
      · exact ⟨_, s, n, [], rfl, ⟨m, openActivations before, hopen, htrace⟩, .inl hthrow⟩
  | stopped why n =>
      rw [ho] at hframes hending
      cases why with
      | exhausted =>
          simp only [IsTraced, Recorded.starting, Recorded.settle, Eval.settle, ho]
          exact .stopped hm hentered hframes trivial
      | outOfFuel =>
          simp only [IsTraced, Recorded.starting, Recorded.settle, Eval.settle, ho]
          exact .stopped hm hentered hframes trivial
      | thrown t =>
          simp only [IsTraced, Recorded.starting, Recorded.settle, Eval.settle, ho]
          have hopen := hending.1.trans (openActivations_concat ..)
          refine .ended hm hentered hframes hopen fun t' ht' => ?_
          obtain rfl : t = t' := Option.some.inj ht'
          exact hending.2.append _
      | failed f =>
          have hsettle : Eval.settle limits.catchFaults s.span (fun m => (c m).1) m =
              Eval.settle limits.catchFaults s.span (Eval.stop (.failed f)) n := by
            simp only [Eval.settle, ho, Eval.stop]
          simp only [IsTraced, Recorded.starting, Recorded.settle, hsettle]
          exact .settled hm hentered hframes hending

end Statements

end Recorded.IsTraced

end Lox
