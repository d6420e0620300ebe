import Lox.Proofs.Confinement

/-!
# Reports are rendered without a failing look-up

A report leaves out what it cannot look up. Here a report is rendered so that every look-up of a
span, an offset or a line that fails is an error. Where all labels lie in registered sources there is
none, and the report is the same.
-/

namespace Lox

namespace Report

/-- The labels that lie in the shown source, where each of them must be found. -/
def checkedMarks
    (sources : SourceMap)
    (file : SourceFile)
    (labels : List Label) :
    Except SourceError (List Mark) :=
  (labels.filter fun label => label.span.file = Int.ofNat file.id).mapM fun label => do
    let (_, first, last) ← sources.resolve label.span
    return ⟨label, first, last⟩

/-- The lines with the numbers `first`, …, `first + count - 1`, where each of them must exist. -/
def checkedLines
    (file : SourceFile)
    (shown : Nat → List Char → List String)
    (first count : Nat) :
    Except SourceError (List (List String)) :=
  (List.range' first count).mapM fun (number : Nat) => do
    let text ← file.line number
    return shown number text

/-- The excerpt of a source around some labels, where each line must exist. -/
def checkedExcerpt
    (colored : Bool)
    (file : SourceFile)
    (marks : List Mark) :
    Except SourceError (List String) :=
  match marks with
  | [] => .ok []
  | _ => do
      let firstMarked := (marks.map (·.first.line)).foldl min file.lineCount
      let lastMarked := (marks.map (·.last.line)).foldl max 1
      let firstShown := max 1 (firstMarked - 1)
      let lastShown := min file.lineCount (lastMarked + 1)
      let width := (toString lastShown).length
      let lines ← checkedLines file (excerptLine colored width marks) firstShown
        (lastShown + 1 - firstShown)
      return lines.flatten

/-- The place of a diagnostic with its excerpt, where everything must be found. -/
def checkedLocated
    (colored : Bool)
    (sources : SourceMap)
    (d : Diagnostic) :
    Except SourceError (List String) :=
  match d.primarySpan? with
  | none => .ok []
  | some span => do
      let (file, first, _) ← sources.resolve span
      let marks ← checkedMarks sources file d.labels
      let excerpt ← checkedExcerpt colored file marks
      return paint colored .gutter s!"  --> {sources.shownPath file}:{first.text}" ::
        paint colored .gutter "   |" :: excerpt

/-- The lines of a report in which `located` is the place. -/
def linesAround (colored : Bool) (d : Diagnostic) (located : List String) : List String :=
  let help :=
    match d.help with
    | some text => if text = "" then [] else [paint colored .help s!"   = help: {text}"]
    | none => []
  let isTrace := fun (note : String) => note.startsWith "at "
  let notes := (d.notes.filter (!isTrace ·)).map fun note =>
    paint colored .note s!"   = note: {note}"
  let trace := (d.notes.filter isTrace).map fun entry => paint colored .trace s!"       {entry}"
  let traceHead := if trace.isEmpty then [] else [paint colored .trace "   = stack trace:"]
  let head := paint colored .error d.headline :: located
  head ++ help ++ notes ++ traceHead ++ trace

/-- The report of a diagnostic, where everything must be found. -/
def checkedRender
    (colored : Bool)
    (sources : SourceMap)
    (d : Diagnostic) :
    Except SourceError String := do
  let located ← checkedLocated colored sources d
  return String.join ((linesAround colored d located).map (· ++ "\n")) ++ "\n"

end Report

section Lookups

/-- Both ends of a span in a registered source are found. -/
theorem SourceMap.Holds.resolve
    {sources : SourceMap} {span : Span}
    (h : sources.Holds span) :
    ∃ file first last, sources.resolve span = .ok (file, first, last) := by
  obtain ⟨file, hfile, hstart, hstop⟩ := h
  have hle := span.start_le_stop
  have hfirst : 0 ≤ span.start ∧ span.start ≤ file.length := by omega
  have hlast : 0 ≤ span.last ∧ span.last ≤ file.length := by
    unfold Span.last
    omega
  refine ⟨file, Position.first.after (file.chars.take span.start.toNat),
    Position.first.after (file.chars.take span.last.toNat), ?_⟩
  simp only [SourceMap.resolve, hfile, SourceFile.position_eq, if_pos hfirst, if_pos hlast]
  rfl

theorem foldl_min_le (ns : List Nat) (n : Nat) : ns.foldl min n ≤ n := by
  induction ns generalizing n with
  | nil => exact Nat.le_refl n
  | cons k ns ih => exact Nat.le_trans (ih _) (Nat.min_le_left n k)

end Lookups

namespace Report

variable {sources : SourceMap} {colored : Bool} {file : SourceFile}

theorem checkedMarks_eq
    {labels : List Label}
    (h : ∀ label ∈ labels, sources.Holds label.span) :
    checkedMarks sources file labels = .ok (marks sources file labels) := by
  induction labels with
  | nil => rfl
  | cons label rest ih =>
      have hrest := ih fun other hother => h other (by simp [hother])
      obtain ⟨shown, first, last, hresolve⟩ := (h label (by simp)).resolve
      unfold checkedMarks marks at hrest ⊢
      by_cases hfile : label.span.file = Int.ofNat file.id
      · rw [List.filter_cons_of_pos (by simpa using hfile), List.mapM_cons, hrest,
          List.filterMap_cons]
        simp only [hfile, if_true, hresolve]
        rfl
      · rw [List.filter_cons_of_neg (by simpa using hfile), hrest, List.filterMap_cons]
        simp only [hfile, if_false]

theorem checkedLines_eq
    (shown : Nat → List Char → List String)
    {first count : Nat}
    (hfirst : 1 ≤ first)
    (hcount : first - 1 + count ≤ file.lineCount) :
    checkedLines file shown first count =
      .ok ((((file.lines.drop (first - 1)).take count).zipIdx first).map fun (line, number) =>
        shown number (SourceFile.shownLine line)) := by
  induction count generalizing first with
  | zero => simp [checkedLines]; rfl
  | succ count ih =>
      have hlt : first - 1 < file.lines.length := by
        unfold SourceFile.lineCount at hcount
        omega
      have hrest := @ih (first + 1) (by omega) (by omega)
      unfold checkedLines at hrest ⊢
      rw [List.range'_succ, List.mapM_cons, hrest,
        SourceFile.line_eq hfirst (List.getElem?_eq_getElem hlt), List.drop_eq_getElem_cons hlt,
        show first - 1 + 1 = first + 1 - 1 by omega]
      rfl

/-- The lines that are shown lie between the first and the last one. -/
theorem checkedExcerpt_eq (marks : List Mark) :
    checkedExcerpt colored file marks = .ok (excerpt colored file marks) := by
  cases marks with
  | nil => rfl
  | cons mark rest =>
      have hfirst := foldl_min_le ((mark :: rest).map (·.first.line)) file.lineCount
      simp only [checkedExcerpt, excerpt]
      rw [checkedLines_eq]
      · simp only [List.flatMap]
        rfl
      · exact Nat.le_max_left 1 _
      · omega

theorem checkedLocated_eq
    {d : Diagnostic}
    (h : ∀ label ∈ d.labels, sources.Holds label.span) :
    checkedLocated colored sources d = .ok (located colored sources d) := by
  unfold checkedLocated located
  cases hspan : d.primarySpan? with
  | none => rfl
  | some span =>
      obtain ⟨label, hlabel, rfl⟩ := Option.map_eq_some_iff.mp hspan
      obtain ⟨file, first, last, hresolve⟩ := (h label (List.mem_of_find?_eq_some hlabel)).resolve
      simp only [Option.map_some, hresolve]
      change (checkedMarks sources file d.labels >>= fun marks =>
        checkedExcerpt colored file marks >>= fun excerpt => _) = _
      rw [checkedMarks_eq h]
      change (checkedExcerpt colored file _ >>= fun excerpt => _) = _
      rw [checkedExcerpt_eq]
      rfl

/-- **Rendering.** If all labels lie in registered sources, everything is found. -/
theorem checkedRender_eq
    {d : Diagnostic}
    (h : ∀ label ∈ d.labels, sources.Holds label.span) :
    checkedRender colored sources d = .ok (render colored sources d) := by
  unfold checkedRender
  rw [checkedLocated_eq h]
  rfl

end Report

/-- What a reporter writes: the reports of the first diagnostics, as far as there is room. -/
theorem Reporter.emitAll_eq (r : Reporter) (sources : SourceMap) (ds : List Diagnostic) :
    r.emitAll sources ds =
      ({ r with count := r.count + ds.length },
        String.join ((ds.take (r.limit - r.count)).map (Report.render r.colored sources))) := by
  induction ds generalizing r with
  | nil => simp [emitAll]
  | cons d rest ih =>
      simp only [emitAll, emit, ih, List.length_cons]
      by_cases hcount : r.count < r.limit
      · obtain ⟨left, hleft⟩ := Nat.exists_eq_succ_of_ne_zero (Nat.sub_ne_zero_of_lt hcount)
        have hnext : r.limit - (r.count + 1) = left := by omega
        simp [hcount, hleft, hnext, Nat.add_assoc, Nat.add_comm 1]
      · have hleft : r.limit - r.count = 0 := by omega
        have hnext : r.limit - (r.count + 1) = 0 := by omega
        simp [hcount, hleft, hnext, Nat.add_assoc, Nat.add_comm 1]

end Lox
