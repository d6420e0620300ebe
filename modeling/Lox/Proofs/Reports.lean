import Lox.Proofs.CallDepth
import Lox.Proofs.Confinement
import Lox.Proofs.Tracing.Run

/-!
# Reports of failures

What a run reports when it fails, or ends with a thrown value, says where it happened: one label in a
registered source, and a trace of the calls that were active at the statement concerned, each with
the place of the call expression that was being evaluated in it.
-/

namespace Lox

section Traces

theorem function_of_stackTrace (site : Option Span) (frames : List Frame) :
    (stackTrace site frames).map (·.function) = frames.map (·.name) ++ ["<script>"] := by
  induction frames generalizing site with
  | nil => rfl
  | cons frame outer ih => exact congrArg (frame.name :: ·) (ih frame.callSite)

theorem site_of_stackTrace (site : Option Span) (frames : List Frame) :
    (stackTrace site frames).map (·.site) = site :: frames.map (·.callSite) := by
  induction frames generalizing site with
  | nil => rfl
  | cons frame outer ih => exact congrArg (site :: ·) (ih frame.callSite)

theorem length_of_stackTrace (site : Option Span) (frames : List Frame) :
    (stackTrace site frames).length = frames.length + 1 := by
  simpa using congrArg List.length (site_of_stackTrace site frames)

end Traces

section Places

variable {sources : SourceMap}

/-- The places of a confined trace lie in the sources. -/
theorem holds_of_trace
    {trace : List TraceEntry}
    (h : move sources.confinement trace = trace) :
    ∀ entry ∈ trace, ∀ span ∈ entry.site, sources.Holds span := by
  intro entry hentry span hspan
  have hfixed : move sources.confinement entry = entry := by
    induction trace with
    | nil => cases hentry
    | cons first rest ih =>
        obtain ⟨hfirst, hrest⟩ := List.cons.inj h
        rcases List.mem_cons.mp hentry with rfl | hentry
        · exact hfirst
        · exact ih hrest hentry
  have hsite := congrArg TraceEntry.site hfixed
  rw [Option.mem_def] at hspan
  simp only [Relocatable.move, hspan, Option.map_some, Option.some.injEq] at hsite
  exact SourceMap.confinement_span_eq.mp hsite

theorem Failure.holds_of_label
    {f : Failure} {span : Span} {caption : String}
    (h : move sources.confinement f = f)
    (hlabel : f.label = some (span, caption)) :
    sources.Holds span := by
  have hmoved := congrArg Failure.label h
  simp only [Relocatable.move, hlabel, Option.map_some, Option.some.injEq, Prod.mk.injEq] at hmoved
  exact SourceMap.confinement_span_eq.mp hmoved.1

theorem Thrown.holds_of_span
    {t : Thrown}
    (h : move sources.confinement t = t) :
    sources.Holds t.span :=
  SourceMap.confinement_span_eq.mp (congrArg Thrown.span h)

end Places

/-- The report has one label, at `span`, and a trace of the statement `s`, which was the innermost
one open after `before`: an entry for each call that was active when the statement began, and one
for the program. The first entry has the place of the label, and every other one the place of the
call expression that entered the call before it. -/
structure Pinpoints
    (limits : Limits)
    (sources : SourceMap)
    (before : List Event)
    (s : Stmt)
    (span : Span)
    (trace : List TraceEntry)
    (report : Diagnostic) :
    Prop where
  label : ∃ caption, report.labels = [.main span caption]
  source : sources.Holds span
  calls : ∃ m outer, openActivations before = (s, m) :: outer ∧
    Entered limits before m.frames ∧
    m.frames.length ≤ limits.maxCallDepth ∧
    trace.length = m.frames.length + 1 ∧
    trace.map (·.function) = m.frames.map (·.name) ++ ["<script>"] ∧
    trace.map (·.site) = some span :: m.frames.map (·.callSite)
  first : trace.head?.bind (·.position? sources) = report.position? sources
  positions : ∀ entry ∈ trace, (entry.position? sources).isSome

section Runs

variable {limits : Limits} {sources : SourceMap} {program : Program} {echo : Bool} {m : Machine}

/-- A report with one label at the place of a trace. -/
theorem TracedAt.pinpoints
    {before later : List Event} {s : Stmt} {span : Span} {caption : String}
    {trace : List TraceEntry} {report : Diagnostic}
    (h : TracedAt before s span trace)
    (hm : m.frames = [])
    (hjournal : program.journal limits echo m = before ++ later)
    (hlabels : report.labels = [.main span caption])
    (hspan : sources.Holds span)
    (hsites : ∀ entry ∈ trace, ∀ span ∈ entry.site, sources.Holds span) :
    Pinpoints limits sources before s span trace report := by
  obtain ⟨n, outer, hopen, rfl⟩ := h
  obtain ⟨first, rest, hbefore⟩ := began_of_open (hopen ▸ List.mem_cons_self)
  have hbegan : program.journal limits echo m =
      first ++ .began (.execute s) n :: (rest ++ later) := by
    simp [hjournal, hbefore]
  have hentered : Entered limits before n.frames := by
    have h := (program.entered_of_journal limits echo hm hbegan).append
      (.began (.execute s) n :: rest)
    rwa [← hbefore] at h
  have hdepth : n.frames.length ≤ limits.maxCallDepth := by
    have hmem : .began (.execute s) n ∈ program.journal limits echo m := by
      simp [hbegan]
    obtain ⟨room, hvisits⟩ := program.visits_of_began limits echo m hmem
    exact frames_le_of_visits (by simp [hm]) hvisits
  refine ⟨⟨caption, hlabels⟩, hspan, ⟨n, outer, hopen, hentered, hdepth, length_of_stackTrace ..,
    function_of_stackTrace .., site_of_stackTrace ..⟩, ?_, fun entry hentry => ?_⟩
  · have hreport : report.position? sources = sources.position? span := by
      simp [Diagnostic.position?, Diagnostic.primarySpan?, hlabels, Label.main]
    rw [hreport]
    cases n.frames <;> rfl
  · -- every entry has a place, since every call was made somewhere
    have hsome : ∃ span ∈ entry.site, True := by
      have hmem : entry.site ∈ some span :: n.frames.map (·.callSite) := by
        rw [← site_of_stackTrace]
        exact List.mem_map_of_mem hentry
      rcases List.mem_cons.mp hmem with h | h
      · exact ⟨span, h, trivial⟩
      · obtain ⟨frame, hframe, hsite⟩ := List.mem_map.mp h
        obtain ⟨site, hcall⟩ := hentered.callSite frame hframe
        exact ⟨site, hsite.symm.trans hcall, trivial⟩
    obtain ⟨site, hsite, -⟩ := hsome
    have hposition := (hsites entry hentry site hsite).position
    rw [TraceEntry.position?, Option.mem_def.mp hsite]
    exact hposition

end Runs

/-- **Reports.** Take any session, after any sources, and a source that it accepts. If the run of the
source fails, other than for lack of room on the host, the report pinpoints the innermost statement
that was open when the fault was raised, which was the last thing to happen. If it ends with a
thrown value, the report pinpoints the `throw` statement that threw it, or the statement that ended
with the value because a fault had just been raised in it. -/
theorem failures_pinpointed
    (options : Options)
    (fuel : Nat)
    (terminal : Bool)
    (directory : String)
    (showsRelative : Bool)
    (clock : Nat → Float)
    (inputs : List (String × String × Bool))
    (source path : String)
    (echo : Bool)
    (program : Program) :
    let s := (Session.new options fuel terminal (.empty directory showsRelative) clock).after inputs
    let sources := (s.sources.add path source).1
    let run := program.run s.limits echo s.machine
    let journal := program.journal s.limits echo s.machine
    Program.ofText (s.sources.add path source).2 source.toList options.collectAll = .ok program →
    (∀ f, run.1 = .failed f → f.fault ≠ .hostDepth →
      ∃ before n stmt span, journal = before ++ [.raised f.fault n] ∧
        Pinpoints s.limits sources before stmt span f.trace (f.diagnostic sources)) ∧
    (∀ t text, run.1 = .uncaught t text →
      ∃ before n stmt later, journal = before ++ .ended stmt (.thrown t) n :: later ∧
        Pinpoints s.limits sources before stmt t.span t.trace (t.diagnostic text sources) ∧
        ((∃ value, stmt = .throwValue value t.span) ∨
          ∃ earlier fault n', before = earlier ++ [.raised fault n'] ∧
            t.payload = .string fault.message)) := by
  intro s sources run journal hprogram
  have hnew := Session.isConfined_new options fuel terminal directory showsRelative clock
  have htop : (Session.new options fuel terminal (.empty directory showsRelative)
      clock).machine.AtTop :=
    Machine.atTop_initial clock
  obtain ⟨hstatements, hmachine⟩ := (Session.confined_after inputs _ hnew htop).add hprogram
  have hrun := congrArg Prod.fst (Program.confined_run hstatements hmachine s.limits echo)
  have hm : s.machine.frames = [] := (Session.atTop_after inputs _ htop).1
  refine ⟨fun f hf hhost => ?_, fun t text ht => ?_⟩
  · obtain ⟨before, n, stmt, span, caption, hjournal, hlabel, htraced⟩ :=
      program.raised_of_failed s.limits echo hm hf hhost
    have hfixed : move sources.confinement f = f := by
      have h : move sources.confinement run.1 = run.1 := hrun
      rw [hf] at h
      exact Ending.failed.inj h
    have hlabels : (f.diagnostic sources).labels = [.main span caption] := by
      simp [Failure.diagnostic, Diagnostic.of, hlabel, Label.normalise, Label.keepFirstPrimary,
        Label.main]
    exact ⟨before, n, stmt, span, hjournal, htraced.pinpoints hm hjournal hlabels
      (Failure.holds_of_label hfixed hlabel) (holds_of_trace (congrArg Failure.trace hfixed))⟩
  · obtain ⟨before, stmt, n, later, hjournal, htraced, hcause⟩ :=
      program.origin_of_uncaught s.limits echo hm ht
    have hfixed : move sources.confinement t = t := by
      have h : move sources.confinement run.1 = run.1 := hrun
      rw [ht] at h
      exact (Ending.uncaught.inj h).1
    exact ⟨before, n, stmt, later, hjournal, htraced.pinpoints hm hjournal rfl
      (Thrown.holds_of_span hfixed) (holds_of_trace (congrArg Thrown.trace hfixed)), hcause⟩

/-- A name that is not defined is looked up in a call. -/
theorem failures_pinpointed_call :
    let source := "fun f() { return missing; } f();"
    let s := (Session.new .default 100 false (.empty "" false) fun _ => 0).after []
    let sources := (s.sources.add "<test>" source).1
    ∃ (program : Program) (f : Failure), ∃ before n stmt span,
      (program.run s.limits false s.machine).1 = .failed f ∧
      f.fault = .undefinedVariable "missing" ∧
      program.journal s.limits false s.machine = before ++ [.raised f.fault n] ∧
      Pinpoints s.limits sources before stmt span f.trace (f.diagnostic sources) := by
  intro source s sources
  have hfile : (s.sources.add "<test>" source).2 = 1 := by
    simp only [SourceMap.add]
    split
    · rfl
    · rfl
  have hrun : (Program.ofText 1 source.toList true).toOption.map
      (fun program => (program.run s.limits false s.machine).1.fault?) =
        some (some (.undefinedVariable "missing")) := by
    decide +kernel
  cases hprogram : Program.ofText 1 source.toList true with
  | error errors =>
      rw [hprogram] at hrun
      cases hrun
  | ok program =>
      rw [hprogram] at hrun
      obtain ⟨f, hending, hfault⟩ := Ending.eq_failed_of_fault? (Option.some.inj hrun)
      have hpinpointed := failures_pinpointed .default 100 false "" false (fun _ => 0) [] source
        "<test>" false program (hfile ▸ hprogram)
      obtain ⟨before, n, stmt, span, hjournal, hpinpoints⟩ :=
        hpinpointed.1 f hending fun hhost => by cases hfault.symm.trans hhost
      exact ⟨program, f, before, n, stmt, span, hending, hfault, hjournal, hpinpoints⟩

end Lox
