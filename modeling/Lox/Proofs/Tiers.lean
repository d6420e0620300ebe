import Lox.Proofs.Checked.Run
import Lox.Proofs.Parse.Modes
import Lox.Proofs.Rendering
import Lox.Proofs.Reports

/-!
# The ways in which a source ends

A source is rejected with all its static errors before it runs, or it runs and fails with one report,
or it runs to its end and nothing is reported. There is no other way: what could go wrong inside the
program that runs sources is looked for in checked runs (`Program.checkedRun`) and checked reports
(`Report.checkedRender`), and never found.
-/

namespace Lox

/-- Not the program but its host put an end to the run: the room of the host or the fuel is used up.
-/
def Ending.IsGivenUp : Ending → Prop
  | unfinished => True
  | failed f => f.fault = .hostDepth
  | completed | rejected _ | uncaught _ _ => False

/-- What there is to report about the end of a run. -/
def Ending.diagnostics (ending : Ending) (sources : SourceMap) : List Diagnostic :=
  match ending with
  | completed | unfinished => []
  | rejected errors => errors.map (·.diagnostic)
  | failed f => [f.diagnostic sources]
  | uncaught t text => [t.diagnostic text sources]

/-- The line that ends a batch of reports, of which some may be hidden. -/
def Report.summaryLine (colored : Bool) (count hidden : Nat) : String :=
  let rest := if hidden = 0 then "" else s!" ({hidden} not shown)"
  paint colored .summary (Reporter.counted count "error" ++ " generated" ++ rest) ++ "\n"

/-- The errors are those of the scan, or those of the reading if there are none of the scan. -/
def AreStaticErrors
    (file : Nat)
    (text : List Char)
    (collectAll : Bool)
    (errors : List StaticError) :
    Prop :=
  (∃ faults, Scan.tokenize file text collectAll = .error faults ∧
    errors = faults.map .lexical) ∨
  ∃ tokens faults, Scan.tokenize file text collectAll = .ok tokens ∧
    Program.ofTokens tokens collectAll = .error faults ∧ errors = faults.map .syntactic

namespace Session

variable (s : Session) (file : Nat) (source : String) (echo : Bool) (run : RunResult × Session)

/-- The source is rejected: nothing runs, the first errors are reported in order, and a summary says
how many there are and how many are not shown. -/
structure Rejects (errors : List StaticError) : Prop where
  ending : run.1.ending = .rejected errors
  exitCode : run.1.ending.exitCode = 65
  isError : errors ≠ [] ∧ AreStaticErrors file source.toList s.options.collectAll errors
  stdout : run.1.stdout = ""
  machine : run.2.machine = s.machine
  stderr : run.1.stderr =
    String.join ((errors.take s.options.maxErrors).map fun e =>
      Report.render s.reporter.colored run.2.sources e.diagnostic) ++
    Report.summaryLine s.reporter.colored errors.length (errors.length - s.options.maxErrors)

/-- The run fails, or ends with a thrown value: this is reported, with a label and a trace of which
every entry has a place. -/
structure Fails (report : Diagnostic) (trace : List TraceEntry) : Prop where
  ending : (∃ f, run.1.ending = .failed f ∧ report = f.diagnostic run.2.sources ∧
      trace = f.trace) ∨
    ∃ t text, run.1.ending = .uncaught t text ∧ report = t.diagnostic text run.2.sources ∧
      trace = t.trace
  exitCode : run.1.ending.exitCode = 70
  label : ∃ span caption, report.labels = [.main span caption]
  places : ∀ entry ∈ trace, (entry.position? run.2.sources).isSome
  stderr : run.1.stderr = Report.render s.reporter.colored run.2.sources report

/-- The source runs to its end. -/
structure Completes : Prop where
  ending : run.1.ending = .completed
  exitCode : run.1.ending.exitCode = 0
  stderr : run.1.stderr = ""

/-- Nothing goes wrong inside the program that runs the source: every operator has a text that is
known, no check fails while the source runs, and all that is reported can be rendered. A check that
fails ends the run for good with `why`, and no ending is that of every `why`; so where the checked
run is the plain one whatever `why` is, none fails. -/
structure RunsSoundly : Prop where
  operators : ∀ tokens, Scan.tokenize file source.toList s.options.collectAll = .ok tokens →
    ∀ token ∈ tokens, token.SpellsOperators
  checks : ∀ program, Program.ofText file source.toList s.options.collectAll = .ok program →
    ∀ why : Interruption, why.IsFinal →
      program.checkedRun .all why s.limits echo s.machine = program.run s.limits echo s.machine
  rendering : ∀ d ∈ run.1.ending.diagnostics run.2.sources,
    Report.checkedRender s.reporter.colored run.2.sources d =
      .ok (Report.render s.reporter.colored run.2.sources d)

end Session

section Reporting

/-- What is written about static errors. -/
theorem Ending.report_rejected
    (r : Reporter)
    (hr : r.count = 0)
    (sources : SourceMap)
    {errors : List StaticError}
    (herrors : errors ≠ []) :
    (Ending.rejected errors).report r sources =
      String.join ((errors.take r.limit).map fun e =>
        Report.render r.colored sources e.diagnostic) ++
      Report.summaryLine r.colored errors.length (errors.length - r.limit) := by
  have hlength : errors.length ≠ 0 := by simpa using herrors
  simp only [Ending.report, Reporter.emitAll_eq, hr]
  simp [Reporter.summary, Reporter.suppressed, Report.summaryLine, hlength, List.map_take,
    Function.comp_def]

end Reporting

section Labels

/-- The report of a static error has one label. -/
theorem StaticError.labels_eq (e : StaticError) :
    ∃ caption, e.diagnostic.labels = [.main e.span caption] := by
  cases e with
  | lexical e => exact ⟨_, rfl⟩
  | syntactic e => exact ⟨_, rfl⟩

theorem Failure.labels_eq
    {f : Failure} {span : Span} {caption : String}
    (h : f.label = some (span, caption))
    (sources : SourceMap) :
    (f.diagnostic sources).labels = [.main span caption] := by
  simp [Failure.diagnostic, Diagnostic.of, h, Label.normalise, Label.keepFirstPrimary, Label.main]

/-- The label of a failure lies in the sources. -/
theorem Failure.holds_of_labels
    {sources : SourceMap} {f : Failure}
    (h : move sources.confinement f = f) :
    ∀ label ∈ (f.diagnostic sources).labels, sources.Holds label.span := by
  cases hlabel : f.label with
  | none => simp [Failure.diagnostic, Diagnostic.of, hlabel, Label.normalise]
  | some place =>
      obtain ⟨span, caption⟩ := place
      rw [Failure.labels_eq hlabel]
      intro label hmem
      rw [List.mem_singleton.mp hmem]
      exact Failure.holds_of_label h hlabel

end Labels

section Runs

variable {s : Session} {source path : String} {echo : Bool}

/-- The labels of all that is reported lie in the sources. -/
def Ending.Holds (ending : Ending) (sources : SourceMap) : Prop :=
  ∀ d ∈ ending.diagnostics sources, ∀ label ∈ d.labels, sources.Holds label.span

theorem Program.errors_ne_nil
    {tokens : List Token} {collectAll : Bool} {errors : List ParseError}
    (h : ofTokens tokens collectAll = .error errors) :
    errors ≠ [] := by
  rcases ofTokens_cases tokens with ⟨program, hfalse, htrue⟩ | ⟨e, later, hfalse, htrue⟩
  · cases collectAll with
    | false => cases hfalse.symm.trans h
    | true => cases htrue.symm.trans h
  · cases collectAll with
    | false => exact Except.error.inj (hfalse.symm.trans h) ▸ List.cons_ne_nil e []
    | true => exact Except.error.inj (htrue.symm.trans h) ▸ List.cons_ne_nil e later

/-- What is wrong with a text that is no program. -/
theorem AreStaticErrors.of_ofText
    {file : Nat} {text : List Char} {collectAll : Bool} {errors : List StaticError}
    (h : Program.ofText file text collectAll = .error errors) :
    errors ≠ [] ∧ AreStaticErrors file text collectAll errors := by
  simp only [Program.ofText] at h
  split at h
  · next faults hfaults =>
      cases h
      exact ⟨by simpa using (Scan.tokenize_eq_error hfaults).1, .inl ⟨faults, hfaults, rfl⟩⟩
  · next tokens htokens =>
      split at h
      · next faults hfaults =>
          cases h
          exact ⟨by simpa using Program.errors_ne_nil hfaults,
            .inr ⟨tokens, faults, htokens, hfaults, rfl⟩⟩
      · cases h

section Rejected

variable {errors : List StaticError}
variable (h : Program.ofText (s.sources.add path source).2 source.toList s.options.collectAll =
  .error errors)
include h

/-- What is left of a source that was rejected. -/
theorem Session.run_rejected :
    s.run source path echo =
      (⟨.rejected errors, "",
          (Ending.rejected errors).report s.reporter (s.sources.add path source).1⟩,
        { s with sources := (s.sources.add path source).1 }) := by
  simp only [Session.run, h]

/-- What is wrong with a source that is rejected is reported. -/
theorem Session.rejects_of_ofText :
    s.Rejects (s.sources.add path source).2 source (s.run source path echo) errors := by
  obtain ⟨hne, horigin⟩ := AreStaticErrors.of_ofText h
  rw [Session.run_rejected h]
  exact ⟨rfl, rfl, ⟨hne, horigin⟩, rfl, rfl, Ending.report_rejected s.reporter rfl _ hne⟩

/-- The static errors of a source lie in it. -/
theorem Session.holds_of_rejected (hs : s.IsConfined) :
    (s.run source path echo).1.ending.Holds (s.run source path echo).2.sources := by
  obtain ⟨-, -, file, hfile, hcontent⟩ := SourceMap.add_spec hs.numbered path source
  rw [Session.run_rejected h]
  intro d hd label hlabel
  obtain ⟨e, he, rfl⟩ := List.mem_map.mp hd
  obtain ⟨caption, hlabels⟩ := e.labels_eq
  rw [hlabels] at hlabel
  rw [List.mem_singleton.mp hlabel]
  exact StaticError.holds_of_ofText hfile hcontent h e he

end Rejected

section Accepted

variable {program : Program}
variable (hprogram : Program.ofText (s.sources.add path source).2 source.toList
  s.options.collectAll = .ok program)
include hprogram

/-- What is left of a source that was run. -/
theorem Session.run_accepted
    {ending : Ending}
    (h : (program.run s.limits echo s.machine).1 = ending) :
    ∃ stdout m, s.run source path echo =
      (⟨ending, stdout, ending.report s.reporter (s.sources.add path source).1⟩,
        { s with sources := (s.sources.add path source).1, machine := m }) := by
  subst h
  refine ⟨(program.run s.limits echo s.machine).2.takeOutput.1,
    (program.run s.limits echo s.machine).2.takeOutput.2, ?_⟩
  simp only [Session.run, hprogram]

variable (hs : s.IsConfined)
include hs

/-- All places in what a run ends with lie in the sources. -/
theorem Session.confined_ending (echo : Bool) :
    let ending := (program.run s.limits echo s.machine).1
    move (s.sources.add path source).1.confinement ending = ending := by
  obtain ⟨hstatements, hmachine⟩ := hs.add hprogram
  exact congrArg Prod.fst (Program.confined_run hstatements hmachine s.limits echo)

theorem Session.confined_failure
    {f : Failure}
    (hf : (program.run s.limits echo s.machine).1 = .failed f) :
    move (s.sources.add path source).1.confinement f = f := by
  have h := Session.confined_ending hprogram hs echo
  rw [hf] at h
  exact Ending.failed.inj h

theorem Session.confined_thrown
    {t : Thrown} {text : String}
    (ht : (program.run s.limits echo s.machine).1 = .uncaught t text) :
    move (s.sources.add path source).1.confinement t = t := by
  have h := Session.confined_ending hprogram hs echo
  rw [ht] at h
  exact (Ending.uncaught.inj h).1

/-- A failure that is not due to the host is reported. -/
theorem Session.fails_of_failed
    {f : Failure}
    (hf : (program.run s.limits echo s.machine).1 = .failed f)
    (hhost : f.fault ≠ .hostDepth) :
    s.Fails (s.run source path echo) (f.diagnostic (s.sources.add path source).1) f.trace := by
  have hfixed := s.confined_failure hprogram hs hf
  obtain ⟨before, n, stmt, span, caption, hjournal, hlabel, htraced⟩ :=
    program.raised_of_failed s.limits echo hs.frames hf hhost
  have hlabels := Failure.labels_eq hlabel (s.sources.add path source).1
  have hpinpoints := htraced.pinpoints hs.frames hjournal hlabels
    (Failure.holds_of_label hfixed hlabel) (holds_of_trace (congrArg Failure.trace hfixed))
  obtain ⟨stdout, m, hrun⟩ := Session.run_accepted hprogram hf
  rw [hrun]
  exact ⟨.inl ⟨f, rfl, rfl, rfl⟩, rfl, ⟨span, caption, hlabels⟩, hpinpoints.positions,
    if_pos s.options.errors_pos⟩

/-- A thrown value that nothing caught is reported. -/
theorem Session.fails_of_uncaught
    {t : Thrown} {text : String}
    (ht : (program.run s.limits echo s.machine).1 = .uncaught t text) :
    s.Fails (s.run source path echo) (t.diagnostic text (s.sources.add path source).1)
      t.trace := by
  have hfixed := s.confined_thrown hprogram hs ht
  obtain ⟨before, stmt, n, later, hjournal, htraced, -⟩ :=
    program.origin_of_uncaught s.limits echo hs.frames ht
  have hlabels : (t.diagnostic text (s.sources.add path source).1).labels = [.main t.span _] := rfl
  have hpinpoints := htraced.pinpoints hs.frames hjournal hlabels
    (Thrown.holds_of_span hfixed) (holds_of_trace (congrArg Thrown.trace hfixed))
  obtain ⟨stdout, m, hrun⟩ := Session.run_accepted hprogram ht
  rw [hrun]
  exact ⟨.inr ⟨t, text, rfl, rfl, rfl⟩, rfl, ⟨t.span, _, rfl⟩, hpinpoints.positions,
    if_pos s.options.errors_pos⟩

omit hs in
theorem Session.completes_of_completed
    (h : (program.run s.limits echo s.machine).1 = .completed) :
    Session.Completes (s.run source path echo) := by
  obtain ⟨stdout, m, hrun⟩ := Session.run_accepted hprogram h
  rw [hrun]
  exact ⟨rfl, rfl, rfl⟩

/-- An accepted source fails, or it is completed, unless its run is given up. -/
theorem Session.run_accepted_cases (echo : Bool) :
    (s.run source path echo).1.ending.IsGivenUp ∨
      (∃ report trace, s.Fails (s.run source path echo) report trace) ∨
      Session.Completes (s.run source path echo) := by
  rcases program.run_cases s.limits echo s.machine with h | ⟨t, text, h⟩ | ⟨f, h⟩ | h
  · exact .inr (.inr (Session.completes_of_completed hprogram h))
  · exact .inr (.inl ⟨_, _, Session.fails_of_uncaught hprogram hs h⟩)
  · by_cases hhost : f.fault = .hostDepth
    · obtain ⟨stdout, m, hrun⟩ := Session.run_accepted hprogram h
      exact .inl (hrun ▸ hhost)
    · exact .inr (.inl ⟨_, _, Session.fails_of_failed hprogram hs h hhost⟩)
  · obtain ⟨stdout, m, hrun⟩ := Session.run_accepted hprogram h
    exact .inl (hrun ▸ trivial)

/-- What a run reports lies in the sources. -/
theorem Session.holds_of_accepted :
    (s.run source path echo).1.ending.Holds (s.run source path echo).2.sources := by
  rcases program.run_cases s.limits echo s.machine with h | ⟨t, text, h⟩ | ⟨f, h⟩ | h
  all_goals
    obtain ⟨stdout, m, hrun⟩ := Session.run_accepted hprogram h
    rw [hrun]
  · nofun
  · intro d hd label hlabel
    rw [List.mem_singleton.mp hd] at hlabel
    rw [List.mem_singleton.mp hlabel]
    exact Thrown.holds_of_span (s.confined_thrown hprogram hs h)
  · intro d hd
    rw [List.mem_singleton.mp hd]
    exact Failure.holds_of_labels (s.confined_failure hprogram hs h)
  · nofun

end Accepted

end Runs

/-- **The tiers of errors are kept apart.** Take any session, after any sources and with any options,
and run a source in it. Unless the run is given up, it ends in exactly one of three ways, which the
exit code tells: the source is rejected with its static errors, it fails with one report, or it is
completed. And whichever way it ends, nothing goes wrong inside the program that runs it. -/
theorem error_tiers_kept_apart
    (options : Options)
    (fuel : Nat)
    (terminal : Bool)
    (directory : String)
    (showsRelative : Bool)
    (clock : Nat → Float)
    (inputs : List (String × String × Bool))
    (source path : String)
    (echo : Bool) :
    let s := (Session.new options fuel terminal (.empty directory showsRelative) clock).after inputs
    let file := (s.sources.add path source).2
    let run := s.run source path echo
    (run.1.ending.IsGivenUp ∨
      (∃ errors, s.Rejects file source run errors) ∨
      (∃ report trace, s.Fails run report trace) ∨
      Session.Completes run) ∧
    s.RunsSoundly file source echo run := by
  intro s file run
  have hnew := Session.isConfined_new options fuel terminal directory showsRelative clock
  have htop : (Session.new options fuel terminal (.empty directory showsRelative)
      clock).machine.AtTop :=
    Machine.atTop_initial clock
  have hconfined := Session.confined_after inputs _ hnew htop
  have hready : s.machine.Ready := Session.ready_after inputs _ (.initial clock)
  have hgrounded := Session.grounded_after inputs
    (Session.new options fuel terminal (.empty directory showsRelative) clock)
    (Machine.grounded_initial clock)
  have hoperators (tokens : List Token)
      (htokens : Scan.tokenize file source.toList s.options.collectAll = .ok tokens) :
      ∀ token ∈ tokens, token.SpellsOperators :=
    fun token htoken =>
      Token.spellsOperators (Scan.tokenize_eq_ok.mp htokens ▸ List.mem_map_of_mem htoken)
  have hchecks (program : Program)
      (hprogram : Program.ofText file source.toList s.options.collectAll = .ok program)
      (why : Interruption) (hwhy : why.IsFinal) :
      program.checkedRun .all why s.limits echo s.machine =
        program.run s.limits echo s.machine :=
    Program.checkedRun_eq_run hprogram hwhy s.limits echo hready hgrounded
  cases hprogram : Program.ofText file source.toList s.options.collectAll with
  | error errors =>
      have hholds : run.1.ending.Holds run.2.sources :=
        Session.holds_of_rejected hprogram hconfined
      exact ⟨.inr (.inl ⟨errors, Session.rejects_of_ofText hprogram⟩), hoperators, hchecks,
        fun d hd => Report.checkedRender_eq (hholds d hd)⟩
  | ok program =>
      have hholds : run.1.ending.Holds run.2.sources :=
        Session.holds_of_accepted hprogram hconfined
      refine ⟨?_, hoperators, hchecks, fun d hd => Report.checkedRender_eq (hholds d hd)⟩
      rcases Session.run_accepted_cases hprogram hconfined echo with h | h | h
      · exact .inl h
      · exact .inr (.inr (.inl h))
      · exact .inr (.inr (.inr h))

end Lox
