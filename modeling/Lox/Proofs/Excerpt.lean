import Lox.Diagnostic.Report
import Lox.Proofs.Source.Lines
import Mathlib.Data.Nat.Digits.Defs

/-!
# Excerpts with one mark

A position is found in a text by going through the text to that position: what was passed since the
last line feed is the beginning of the line, as long as the column says, and what is left up to the
next line feed is its end. So the cells that a mark underlines are those of its span on the line where
it begins.
-/

namespace Lox

section Shown

namespace SourceFile

theorem length_shownLine_le (line : List Char) : (shownLine line).length ≤ line.length := by
  simpa [shownLine] using (List.dropWhile_suffix (· == '\r') (l := line.reverse)).length_le

/-- A character that is no carriage return is shown, and so is what stands before it. -/
theorem lt_length_shownLine
    {before after : List Char}
    {c : Char}
    (hc : c ≠ '\r') :
    before.length < (shownLine (before ++ c :: after)).length := by
  have hdrop (cs : List Char) :
      before.length < ((cs ++ c :: before.reverse).dropWhile (· == '\r')).length := by
    induction cs with
    | nil => simp [hc]
    | cons d cs ih =>
        rw [List.cons_append, List.dropWhile_cons]
        split
        · exact ih
        · simp only [List.length_cons, List.length_append, List.length_reverse]
          omega
  simpa [shownLine] using hdrop after.reverse

theorem shownLine_eq {line : List Char} (h : line.getLast? ≠ some '\r') :
    shownLine line = line := by
  cases line using List.reverseRecOn with
  | nil => rfl
  | append_singleton line c =>
      have hc : c ≠ '\r' := by simpa using h
      simp [shownLine, hc]

theorem length_shownLine_concat (line : List Char) :
    (shownLine (line ++ ['\r'])).length ≤ line.length := by
  simpa [shownLine] using (List.dropWhile_suffix (· == '\r') (l := line.reverse)).length_le

end SourceFile

end Shown

namespace Report

section Cells

/-- How many cells are marked of a span that begins in a line: the part of the span on that line, as
far as `room` characters are shown from there on, and at least one. -/
def cellCount (span : Span) (room : Nat) : Nat :=
  max 1 (min room (span.stop - span.start).toNat)

theorem one_le_cellCount (span : Span) (room : Nat) : 1 ≤ cellCount span room :=
  Nat.le_max_left ..

theorem cellCount_le {span : Span} {column length : Nat} (h : column - 1 ≤ length) :
    column - 1 + cellCount span (length - (column - 1)) ≤ length + 1 := by
  unfold cellCount
  omega

variable {file : SourceFile} {span : Span}

/-- The marked cells are those of the span. -/
theorem Mark.columns_eq
    {label : Label}
    {start : Nat}
    (hstart : span.start = start)
    (hstop : span.stop ≤ file.length)
    (length : Nat) :
    let before := file.chars.take start
    let first := Position.first.after before
    let last := Position.first.after (file.chars.take span.last.toNat)
    length ≤ (lastLine before).length + ((file.chars.drop start).takeWhile (· ≠ '\n')).length →
    first.column - 1 ≤ length →
    (Mark.mk label first last).columns first.line length =
      (first.column - 1, first.column - 1 + cellCount span (length - (first.column - 1))) := by
  intro before first last hlength hcolumn
  have hle := span.start_le_stop
  have hcount : first.column = (lastLine before).length + 1 := Position.column_after before
  -- what the span covers, but for its last character
  let covered := (file.chars.drop start).take (span.last.toNat - start)
  have hchars : file.chars.length = file.length := String.length_toList
  have hcovered : covered.length = span.last.toNat - start := by
    simp only [covered, List.length_take, List.length_drop, hchars, Span.last]
    omega
  have hlast : last = first.after covered := by
    have htake : file.chars.take span.last.toNat = before ++ covered := by
      have hsum : span.last.toNat = start + (span.last.toNat - start) := by
        simp only [Span.last]
        omega
      rw [hsum, List.take_add]
    simp only [last, htake, Position.after_append, first]
  simp only [columns, cellCount, Prod.mk.injEq, true_and, hlast]
  by_cases hfeed : '\n' ∈ covered
  · have hline := first.line_lt_of_feed hfeed
    have hshort : ((file.chars.drop start).takeWhile (· ≠ '\n')).length < covered.length :=
      length_takeWhile_lt hfeed (List.take_prefix _ _)
    rw [if_neg (Nat.ne_of_gt hline)]
    simp only [Span.last] at hcovered
    omega
  · rw [first.after_eq_of_no_feed hfeed, if_pos rfl, hcovered]
    simp only [Span.last]
    omega

theorem fill_blank (c : Char) {start stop length : Nat} (h : start ≤ stop) (hstop : stop ≤ length) :
    fill c start stop (List.replicate length ' ') =
      List.replicate start ' ' ++ List.replicate (stop - start) c ++
        List.replicate (length - stop) ' ' := by
  refine List.ext_getElem (by simp [fill]; omega) fun i hi hi' => ?_
  simp only [fill, List.getElem_mapIdx, List.getElem_replicate, List.getElem_append,
    List.length_append, List.length_replicate]
  split <;> split <;> first | rfl | (split <;> first | rfl | omega) | omega

/-- Blanks at the end of an underline are left out. -/
theorem trim_append_blank
    {cells : List Char}
    (h : cells.getLast? ≠ some ' ')
    (blanks : Nat) :
    ((cells ++ List.replicate blanks ' ').reverse.dropWhile (· == ' ')).reverse = cells := by
  have hblank (blanks : Nat) (rest : List Char) :
      (List.replicate blanks ' ' ++ rest).dropWhile (· == ' ') = rest.dropWhile (· == ' ') := by
    induction blanks with
    | zero => rfl
    | succ blanks ih => simp [List.replicate_succ]
  rw [List.reverse_append, List.reverse_replicate, hblank]
  cases cells using List.reverseRecOn with
  | nil => rfl
  | append_singleton cells c =>
      have hc : c ≠ ' ' := by simpa using h
      simp [hc]

variable {mark : Mark} {number length : Nat}

theorem underline_eq
    {cells : Nat}
    (hprimary : mark.label.primary = true)
    (h : mark.columns number length = (mark.first.column - 1, mark.first.column - 1 + cells))
    (hpos : 0 < cells)
    (hcells : mark.first.column - 1 + cells ≤ length + 1) :
    underline [mark] number length =
      List.replicate (mark.first.column - 1) ' ' ++ List.replicate cells '^' := by
  simp only [underline, List.foldl_cons, List.foldl_nil, h, underlineChar, hprimary, if_true]
  rw [fill_blank _ (Nat.le_add_right _ _) hcells, Nat.add_sub_cancel_left]
  refine trim_append_blank ?_ _
  simp [List.getLast?_append, List.getLast?_replicate, Nat.ne_of_gt hpos]

/-- A mark that begins too far beyond the end of the line is not seen. -/
theorem underline_beyond (h : length < mark.first.column - 1) :
    underline [mark] number length = [] := by
  have hnone : fill (underlineChar mark.label) (mark.columns number length).1
      (mark.columns number length).2 (List.replicate (length + 1) ' ') =
        List.replicate (length + 1) ' ' := by
    refine List.ext_getElem (by simp [fill]) fun i hi hi' => ?_
    simp only [fill, List.getElem_mapIdx, List.getElem_replicate, Mark.columns]
    exact if_neg (by omega)
  simp only [underline, List.foldl_cons, List.foldl_nil, hnone]
  simp

end Cells

section Layout

theorem length_toString_mono {m n : Nat} (h : m ≤ n) :
    (toString m).length ≤ (toString n).length := by
  have hlength (k : Nat) : (toString k).length = (Nat.toDigits 10 k).length :=
    String.length_ofList
  rw [hlength, hlength, Nat.length_toDigits_le_iff (by decide) Nat.length_toDigits_pos]
  refine Nat.lt_of_le_of_lt h ?_
  exact (Nat.length_toDigits_le_iff (by decide) Nat.length_toDigits_pos).mp (Nat.le_refl _)

theorem length_padded {width number : Nat} (h : (toString number).length ≤ width) :
    (padded width number).length = width := by
  simp only [padded, spaces, String.length_append, String.length_ofList, List.length_replicate]
  omega

theorem join_paintCell (cells : List Char) :
    String.join (cells.map (paintCell false)) = String.ofList cells := by
  induction cells with
  | nil => rfl
  | cons c cells ih =>
      have hcell : paintCell false c = String.ofList [c] := by
        by_cases hc : c = ' '
        · rw [paintCell, if_pos hc, hc]
        · rw [paintCell, if_neg hc]
          rfl
      rw [List.map_cons, String.join_cons, ih, hcell, ← String.ofList_append,
        List.singleton_append]

variable {mark : Mark} {number width : Nat} {caption : String}

/-- The line on which the only mark begins, its underline and its caption. -/
theorem excerptLine_eq
    (hlabel : mark.label.text = some caption)
    (hcaption : caption ≠ "")
    (text : List Char) :
    excerptLine false width [mark] mark.first.line text =
      [padded width mark.first.line ++ " | " ++ String.ofList text,
        spaces width ++ " | " ++ String.ofList (underline [mark] mark.first.line text.length),
        spaces (width + 3 + (mark.first.column - 1)) ++ caption] := by
  have hbar : " " ++ ("|" ++ " ") = " | " := by decide
  simp [excerptLine, caption?, hlabel, hcaption, paint, join_paintCell, String.append_assoc, ← hbar]

/-- The excerpt shows the line on which the only mark begins. -/
theorem excerpt_eq
    {file : SourceFile}
    {line : List Char}
    (hpos : 1 ≤ mark.first.line)
    (hline : file.lines[mark.first.line - 1]? = some line)
    (horder : mark.first.line ≤ mark.last.line) :
    ∃ width before after, (toString mark.first.line).length ≤ width ∧
      excerpt false file [mark] =
        before ++ excerptLine false width [mark] mark.first.line (SourceFile.shownLine line) ++
          after := by
  obtain ⟨hlt, hget⟩ := List.getElem?_eq_some_iff.mp hline
  have hcount : mark.first.line ≤ file.lineCount := by
    rw [SourceFile.lineCount]
    omega
  let firstShown := max 1 (min file.lineCount mark.first.line - 1)
  let lastShown := min file.lineCount (max 1 mark.last.line + 1)
  let shown := (file.lines.drop (firstShown - 1)).take (lastShown + 1 - firstShown)
  have hindex : shown[mark.first.line - firstShown]? = some line := by
    rw [List.getElem?_take_of_lt (by omega), List.getElem?_drop, ← hline]
    congr 1
    omega
  obtain ⟨hlt', hget'⟩ := List.getElem?_eq_some_iff.mp hindex
  have hshown : shown = shown.take (mark.first.line - firstShown) ++
      line :: shown.drop (mark.first.line - firstShown + 1) := by
    rw [← hget', List.getElem_cons_drop, List.take_append_drop]
  have habove : firstShown + (shown.take (mark.first.line - firstShown)).length =
      mark.first.line := by
    rw [List.length_take]
    omega
  let width := (toString lastShown).length
  let shownAs := fun (line, number) =>
    excerptLine false width [mark] number (SourceFile.shownLine line)
  have hexcerpt : excerpt false file [mark] = (shown.zipIdx firstShown).flatMap shownAs := rfl
  rw [hshown, List.zipIdx_append, List.zipIdx_cons, habove, List.flatMap_append,
    List.flatMap_cons, ← List.append_assoc] at hexcerpt
  exact ⟨width, _, _, length_toString_mono (by omega), hexcerpt⟩

end Layout

end Report

end Lox
