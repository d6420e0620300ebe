import Lox.Proofs.Anchoring
import Lox.Proofs.Captions
import Lox.Proofs.Excerpt
import Lox.Proofs.Tiers

/-!
# Carets stand under the reported position

A report quotes the line of its position and underlines the part of the span on that line, from the
column of the position on. Carriage returns at the end of a line are not shown, but they have columns.
As nothing that is reported begins at one, this makes a difference only behind the last line: if a
text ends with a carriage return, what is found missing at its end is not underlined.
-/

namespace Lox

/-- The text ends with a carriage return. -/
def SourceFile.EndsInReturn (file : SourceFile) : Prop :=
  file.chars.getLast? = some '\r'

namespace Report

/-- The diagnostic has one label, with a caption, and its uncoloured report shows the position at which
the span of the label begins: in a header; by a quotation of its line, with the number; directly below
that by an underline, of which `cells` are the cells under the quoted text; and by the caption, which
begins in the column of the position. -/
structure ShowsPlace
    (sources : SourceMap)
    (d : Diagnostic)
    (file : SourceFile)
    (span : Span)
    (position : Position)
    (text cells : List Char)
    (caption : String) :
    Prop where
  label : d.labels = [.main span caption]
  captioned : caption ≠ ""
  source : sources.get? span.file = some file
  found : file.position span.start = .ok position
  quoted : file.line position.line = .ok text
  shown : ∃ width before after,
    (padded width position.line).length = width ∧
    lines false sources d =
      [d.headline, s!"  --> {sources.shownPath file}:{position.text}", "   |"] ++ before ++
      [padded width position.line ++ " | " ++ String.ofList text,
        spaces width ++ " | " ++ String.ofList cells,
        spaces (width + 3 + (position.column - 1)) ++ caption] ++ after

section Places

variable {sources : SourceMap} {d : Diagnostic} {span : Span} {caption : String}

/-- The cells under the text of the line of a position, where only the span is marked. -/
def placeCells (span : Span) (position : Position) (text : List Char) : List Char :=
  List.replicate (position.column - 1) ' ' ++
    List.replicate (cellCount span (text.length - (position.column - 1))) '^'

/-- The uncoloured report of the diagnostic shows the place of its label. What is marked there is the
part of the label on the line, and at least one cell, which may be the one behind the text; but
nothing is marked if the label is at the end of a text that ends with a carriage return. -/
def PointsAtPlace (sources : SourceMap) (d : Diagnostic) : Prop :=
  ∃ file span position text cells caption,
    ShowsPlace sources d file span position text cells caption ∧
    (span.start = file.length ∧ file.EndsInReturn → cells = []) ∧
    (¬(span.start = file.length ∧ file.EndsInReturn) →
      position.column - 1 ≤ text.length ∧ cells = placeCells span position text)

/-- The line on which something begins, and how much of it is shown. -/
theorem line_of_anchors
    {file : SourceFile}
    {start : Nat}
    (hanchors : file.anchors start = true) :
    let position := Position.first.after (file.chars.take start)
    ∃ line,
      file.lines[position.line - 1]? = some line ∧
      line.length = (lastLine (file.chars.take start)).length +
        ((file.chars.drop start).takeWhile (· ≠ '\n')).length ∧
      (start = file.length ∧ file.EndsInReturn →
        (SourceFile.shownLine line).length < position.column - 1) ∧
      (¬(start = file.length ∧ file.EndsInReturn) →
        position.column - 1 ≤ (SourceFile.shownLine line).length) := by
  intro position
  have hdrop := splitLines_drop (file.chars.take start) (file.chars.drop start)
  rw [List.take_append_drop] at hdrop
  have hcolumn : position.column = _ := Position.column_after (file.chars.take start)
  have hchars : file.chars.length = file.length := String.length_toList
  simp only [SourceFile.anchors, Bool.and_eq_true, decide_eq_true_eq, Int.toNat_natCast] at hanchors
  obtain ⟨⟨-, hle⟩, hfirst⟩ := hanchors
  refine ⟨_, ?_, List.length_append, ?_⟩
  · rw [SourceFile.lines, ← List.head?_drop, hdrop, List.head?_cons]
  · rw [hcolumn, Nat.add_sub_cancel]
    cases hrest : file.chars.drop start with
    | nil =>
        have hend : start = file.length := by
          have := List.drop_eq_nil_iff.mp hrest
          omega
        have htake : file.chars.take start = file.chars := List.take_of_length_le (by omega)
        have hlast : (lastLine file.chars).getLast? = some '\r' ↔ file.EndsInReturn :=
          getLast?_lastLine _ (by decide)
        rw [htake, List.takeWhile_nil, List.append_nil]
        refine ⟨fun h => ?_, fun h => ?_⟩
        · obtain ⟨line, hline⟩ := List.getLast?_eq_some_iff.mp (hlast.mpr h.2)
          rw [hline, List.length_append]
          exact Nat.lt_succ_of_le (SourceFile.length_shownLine_concat line)
        · rw [SourceFile.shownLine_eq fun hreturn => h ⟨hend, hlast.mp hreturn⟩]
    | cons c rest =>
        have hlt : start < file.chars.length := by
          have := congrArg List.length hrest
          simp only [List.length_drop, List.length_cons] at this
          omega
        have hc : file.chars[start]? = some c := by
          rw [← List.head?_drop, hrest, List.head?_cons]
        simp only [hc, Bool.and_eq_true, decide_eq_true_eq] at hfirst
        rw [List.takeWhile_cons_of_pos (by simpa using hfirst.1)]
        refine ⟨fun h => by omega, fun _ => ?_⟩
        exact Nat.le_of_lt (SourceFile.lt_length_shownLine hfirst.2)

/-- The report of a diagnostic with one label that is found. -/
theorem lines_of_label
    {file : SourceFile} {first last : Position} {marked : List Mark}
    (hlabels : d.labels = [.main span caption])
    (hresolve : sources.resolve span = .ok (file, first, last))
    (hmarks : marks sources file d.labels = marked) :
    ∃ later, lines false sources d =
      [d.headline, s!"  --> {sources.shownPath file}:{first.text}", "   |"] ++
        excerpt false file marked ++ later := by
  have hprimary : d.primarySpan? = some span := by
    simp [Diagnostic.primarySpan?, hlabels, Label.main]
  have hlocated : located false sources d =
      s!"  --> {sources.shownPath file}:{first.text}" :: "   |" :: excerpt false file marked := by
    simp only [located, hprimary, Option.map_some, hresolve, hmarks]
    rfl
  refine ⟨(linesAround false d []).tail, ?_⟩
  have hlines : lines false sources d = linesAround false d (located false sources d) := rfl
  simp [hlines, hlocated, linesAround, paint]

/-- A diagnostic with one label, which is anchored, shows the place of the label. -/
theorem pointsAtPlace_of_anchors
    (hnumbered : sources.IsNumbered)
    (hlabels : d.labels = [.main span caption])
    (hcaption : caption ≠ "")
    (hspan : sources.Anchors span) :
    PointsAtPlace sources d := by
  obtain ⟨file, hfile, hanchors, hstop⟩ := hspan
  have hle := span.start_le_stop
  obtain ⟨hstart, hbound⟩ : 0 ≤ span.start ∧ span.start ≤ file.length := by
    simp only [SourceFile.anchors, Bool.and_eq_true, decide_eq_true_eq] at hanchors
    exact hanchors.1
  obtain ⟨start, hnat⟩ := Int.eq_ofNat_of_zero_le hstart
  rw [hnat] at hanchors
  obtain ⟨line, hline, hlength, hbeyond, hwithin⟩ := line_of_anchors hanchors
  let first := Position.first.after (file.chars.take start)
  let last := Position.first.after (file.chars.take span.last.toNat)
  let mark : Mark := ⟨.main span caption, first, last⟩
  let text := SourceFile.shownLine line
  have hfound : file.position span.start = .ok first := by
    rw [SourceFile.position_eq, if_pos ⟨hstart, hbound⟩, hnat]
    rfl
  have hlast : file.position span.last = .ok last := by
    have hbounds : 0 ≤ span.last ∧ span.last ≤ file.length := by
      simp only [Span.last]
      omega
    rw [SourceFile.position_eq, if_pos hbounds]
  have hpos : 1 ≤ first.line := Position.one_le_line _
  have hquoted : file.line first.line = .ok text := SourceFile.line_eq hpos hline
  have hresolve : sources.resolve span = .ok (file, first, last) := by
    simp only [SourceMap.resolve, hfile, hfound, hlast]
    rfl
  have hmarks : marks sources file d.labels = [mark] := by
    have hid : span.file = Int.ofNat file.id := (hnumbered.id_eq hfile).symm
    rw [marks, hlabels, List.filterMap_cons, List.filterMap_nil]
    simp only [Label.main, if_pos hid, hresolve]
    rfl
  have horder : first.line ≤ last.line := by
    have htake : span.last.toNat = start + (span.last.toNat - start) := by
      simp only [Span.last]
      omega
    simp only [last]
    rw [htake, List.take_add, Position.after_append]
    exact Position.line_le_after _ _
  obtain ⟨width, before, after, hwidth, hexcerpt⟩ := @excerpt_eq mark file line hpos hline horder
  rw [excerptLine_eq rfl hcaption] at hexcerpt
  obtain ⟨later, hlines⟩ := lines_of_label hlabels hresolve hmarks
  rw [hexcerpt] at hlines
  refine ⟨file, span, first, text, underline [mark] first.line text.length, caption,
    ⟨hlabels, hcaption, hfile, hfound, hquoted, width, before, after ++ later,
      length_padded hwidth, ?_⟩,
    fun h => underline_beyond (hbeyond ⟨by omega, h.2⟩), fun h => ?_⟩
  · simpa using hlines
  · have hcolumn := hwithin fun h' => h ⟨by omega, h'.2⟩
    refine ⟨hcolumn, underline_eq rfl (Mark.columns_eq hnat hstop text.length ?_ hcolumn) ?_ ?_⟩
    · exact Nat.le_trans (SourceFile.length_shownLine_le line) (Nat.le_of_eq hlength)
    · exact one_le_cellCount span _
    · exact cellCount_le hcolumn

end Places

end Report

section Runs

/-- What is reported about the end of a run has one label, which is anchored and has a caption. -/
def Ending.IsAnchored (ending : Ending) (sources : SourceMap) : Prop :=
  ∀ d ∈ ending.diagnostics sources, ∃ span caption,
    d.labels = [.main span caption] ∧ caption ≠ "" ∧ sources.Anchors span

theorem StaticError.caption_of_labels
    {e : StaticError} {span : Span} {caption : String}
    (h : e.diagnostic.labels = [.main span caption]) :
    span = e.span ∧ caption ≠ "" := by
  cases e with
  | lexical e =>
      cases h
      exact ⟨rfl, LexFault.caption_ne e.cause⟩
  | syntactic e =>
      cases h
      exact ⟨rfl, e.caption_ne⟩

variable {s : Session} {source path : String} {echo : Bool}

theorem Session.anchored_of_rejected
    (hs : s.StaysPut SourceMap.anchoring)
    {errors : List StaticError}
    (h : Program.ofText (s.sources.add path source).2 source.toList s.options.collectAll =
      .error errors) :
    (s.run source path echo).1.ending.IsAnchored (s.run source path echo).2.sources := by
  obtain ⟨-, -, file, hfile, hcontent⟩ := SourceMap.add_spec hs.numbered path source
  rw [Session.run_rejected h]
  intro d hd
  obtain ⟨e, he, rfl⟩ := List.mem_map.mp hd
  obtain ⟨caption, hlabels⟩ := e.labels_eq
  have hanchors := SourceMap.anchoring_span_eq.mp
    (SourceMap.anchoring_steady.errors hfile hcontent h e he)
  exact ⟨_, caption, hlabels, (StaticError.caption_of_labels hlabels).2, hanchors⟩

variable {program : Program}
variable (hprogram : Program.ofText (s.sources.add path source).2 source.toList
  s.options.collectAll = .ok program)
variable (hs : s.StaysPut SourceMap.anchoring)
include hprogram hs

theorem Session.anchored_ending (echo : Bool) :
    let ending := (program.run s.limits echo s.machine).1
    move (s.sources.add path source).1.anchoring ending = ending := by
  obtain ⟨hstatements, hmachine⟩ := SourceMap.anchoring_steady.add hs hprogram
  exact congrArg Prod.fst (Program.run_fixed hstatements hmachine s.limits echo)

theorem Session.anchored_of_failed
    {f : Failure}
    (hf : (program.run s.limits echo s.machine).1 = .failed f)
    (hhost : f.fault ≠ .hostDepth) :
    (Ending.failed f).IsAnchored (s.sources.add path source).1 := by
  intro d hd
  have hfixed := Session.anchored_ending hprogram hs echo
  rw [hf] at hfixed
  have hplace := congrArg Failure.label (Ending.failed.inj hfixed)
  obtain ⟨-, -, -, span, caption, -, hlabel, -⟩ :=
    program.raised_of_failed s.limits echo hs.frames hf hhost
  simp only [Relocatable.move, hlabel, Option.map_some, Option.some.injEq, Prod.mk.injEq] at hplace
  rw [List.mem_singleton.mp hd]
  exact ⟨span, caption, Failure.labels_eq hlabel _, Program.captioned_of_failed hf _ hlabel,
    SourceMap.anchoring_span_eq.mp hplace.1⟩

theorem Session.anchored_of_uncaught
    {t : Thrown} {text : String}
    (ht : (program.run s.limits echo s.machine).1 = .uncaught t text) :
    (Ending.uncaught t text).IsAnchored (s.sources.add path source).1 := by
  intro d hd
  have hfixed := Session.anchored_ending hprogram hs echo
  rw [ht] at hfixed
  rw [List.mem_singleton.mp hd]
  exact ⟨t.span, _, rfl, by decide,
    SourceMap.anchoring_span_eq.mp (congrArg Thrown.span (Ending.uncaught.inj hfixed).1)⟩

omit hprogram in
/-- What a run reports is anchored, unless the run is given up. -/
theorem Session.anchored_run (source path : String) (echo : Bool) :
    let run := s.run source path echo
    run.1.ending.IsGivenUp ∨ run.1.ending.IsAnchored run.2.sources := by
  cases hprogram : Program.ofText (s.sources.add path source).2 source.toList
      s.options.collectAll with
  | error errors => exact .inr (Session.anchored_of_rejected hs hprogram)
  | ok program =>
      rcases program.run_cases s.limits echo s.machine with h | ⟨t, text, h⟩ | ⟨f, h⟩ | h
      all_goals
        obtain ⟨stdout, m, hrun⟩ := Session.run_accepted hprogram h
        rw [hrun]
      · exact .inr nofun
      · exact .inr (Session.anchored_of_uncaught hprogram hs h)
      · by_cases hhost : f.fault = .hostDepth
        · exact .inl hhost
        · exact .inr (Session.anchored_of_failed hprogram hs h hhost)
      · exact .inl trivial

end Runs

section Written

/-- What is written of a run, apart from what its program prints, is about its end. -/
theorem Session.stderr_run (s : Session) (source path : String) (echo : Bool) :
    let run := s.run source path echo
    run.2.sources = (s.sources.add path source).1 ∧
      run.1.stderr = run.1.ending.report s.reporter run.2.sources := by
  simp only [Session.run]
  split <;> exact ⟨rfl, rfl⟩

/-- What is written about the end of a run: the first of the reports, and what closes them. -/
theorem Ending.report_eq
    (ending : Ending)
    {r : Reporter}
    (hcount : r.count = 0)
    (hlimit : 0 < r.limit)
    (sources : SourceMap) :
    ∃ summary, ending.report r sources =
      String.join (((ending.diagnostics sources).take r.limit).map
        (Report.render r.colored sources)) ++ summary := by
  have hone (d : Diagnostic) :
      (r.emit sources d).2 =
        String.join (([d].take r.limit).map (Report.render r.colored sources)) ++ "" := by
    obtain ⟨n, hn⟩ := Nat.exists_eq_succ_of_ne_zero (Nat.ne_of_gt hlimit)
    simp [Reporter.emit, hcount, hn]
  cases ending with
  | completed | unfinished => exact ⟨"", by simp [report, diagnostics]⟩
  | rejected errors =>
      refine ⟨((r.emitAll sources (errors.map (·.diagnostic))).1).summary, ?_⟩
      simp only [report, diagnostics, Reporter.emitAll_eq, hcount, Nat.sub_zero]
  | failed f => exact ⟨"", hone _⟩
  | uncaught t text => exact ⟨"", hone _⟩

end Written

/-- **Carets.** Take any session, after any sources and with any options, and run a source in it.
Unless the run is given up, what is written begins with the reports of all that went wrong, as far as
they are shown, and the uncoloured report of each of them shows the place of its label, with a mark
under it except at the end of a text that ends with a carriage return. -/
theorem caret_under_position
    (options : Options)
    (fuel : Nat)
    (terminal : Bool)
    (directory : String)
    (showsRelative : Bool)
    (clock : Nat → Float)
    (inputs : List (String × String × Bool))
    (source path : String)
    (echo : Bool) :
    let s := (Session.new options fuel terminal (.empty directory showsRelative) clock).after inputs
    let run := s.run source path echo
    let reports := run.1.ending.diagnostics run.2.sources
    run.1.ending.IsGivenUp ∨
      (∃ summary, run.1.stderr =
        String.join ((reports.take s.options.maxErrors).map
          (Report.render s.reporter.colored run.2.sources)) ++ summary) ∧
      ∀ d ∈ reports, Report.PointsAtPlace run.2.sources d := by
  intro s run reports
  have hnew := Session.staysPut_new SourceMap.anchoring options fuel terminal directory showsRelative
    clock
  have htop : (Session.new options fuel terminal (.empty directory showsRelative)
      clock).machine.AtTop :=
    Machine.atTop_initial clock
  have hs : s.StaysPut SourceMap.anchoring := SourceMap.anchoring_steady.after inputs _ hnew htop
  obtain ⟨hsources, hstderr⟩ := s.stderr_run source path echo
  have hnumbered : run.2.sources.IsNumbered :=
    hsources ▸ (SourceMap.add_spec hs.numbered path source).1
  rcases Session.anchored_run hs source path echo with hgivenUp | hanchored
  · exact .inl hgivenUp
  · refine .inr ⟨?_, fun d hd => ?_⟩
    · rw [hstderr]
      exact run.1.ending.report_eq rfl s.options.errors_pos run.2.sources
    · obtain ⟨span, caption, hlabels, hcaption, hspan⟩ := hanchored d hd
      exact Report.pointsAtPlace_of_anchors hnumbered hlabels hcaption hspan

/-- Behind a carriage return, what is missing at the end of a text has a position and a caption, but
no caret. -/
theorem caret_missing_behind_return :
    let s := (Session.new .default 100 false (.empty "" false) fun _ => 0).after []
    let run := s.run "print 1\r" "<test>" false
    ∃ d, run.1.ending.diagnostics run.2.sources = [d] ∧
      d.position? run.2.sources = some ⟨1, 9⟩ ∧
      Report.lines false run.2.sources d =
        ["Error [LOX2001]: expected ';' after value, found 'end of input'",
          "  --> <test>:1:9",
          "   |",
          "1 | print 1",
          "  | ",
          "            expected ';' after value here"] ∧
      ∀ line ∈ Report.lines false run.2.sources d, '^' ∉ line.toList := by
  intro s run
  have hreports : (run.1.ending.diagnostics run.2.sources).map (fun d =>
      (d.position? run.2.sources, Report.lines false run.2.sources d)) =
      [(some ⟨1, 9⟩,
        ["Error [LOX2001]: expected ';' after value, found 'end of input'",
          "  --> <test>:1:9",
          "   |",
          "1 | print 1",
          "  | ",
          "            expected ';' after value here"])] := by
    decide +kernel
  obtain ⟨d, hd, hreport⟩ := List.map_eq_singleton_iff.mp hreports
  obtain ⟨hposition, hlines⟩ := Prod.mk.inj hreport
  exact ⟨d, hd, hposition, hlines, hlines ▸ by decide⟩

end Lox
