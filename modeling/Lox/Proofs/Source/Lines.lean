import Lox.Proofs.Token.Segments
import Lox.Source.Map
import Mathlib.Data.List.Induction

/-!
# Lines and positions

A position is looked up in the table of the offsets at which lines begin, of which the last one up to
the offset is searched. Going through the text to the offset, character by character, leads to the same
position (`SourceFile.position_eq`): the table holds one offset for each line feed that was passed, and
none of the others is reached by the search.
-/

namespace Lox

section Lines

/-- The part of a text behind its last line feed. -/
def lastLine (text : List Char) : List Char :=
  (text.reverse.takeWhile (· ≠ '\n')).reverse

theorem lastLine_concat (text : List Char) (c : Char) :
    lastLine (text ++ [c]) = if c = '\n' then [] else lastLine text ++ [c] := by
  by_cases h : c = '\n' <;> simp [lastLine, h]

theorem getLast?_lastLine (text : List Char) {c : Char} (hc : c ≠ '\n') :
    (lastLine text).getLast? = some c ↔ text.getLast? = some c := by
  cases text using List.reverseRecOn with
  | nil => rfl
  | append_singleton text d =>
      rw [lastLine_concat, List.getLast?_concat]
      split
      · next hd => simp [hd, Ne.symm hc]
      · rw [List.getLast?_concat]

theorem Position.after_concat (p : Position) (text : List Char) (c : Char) :
    p.after (text ++ [c]) = (p.after text).next c :=
  Position.after_append p text [c]

theorem Position.one_le_line (text : List Char) : 1 ≤ (Position.first.after text).line := by
  induction text using List.reverseRecOn with
  | nil => exact Nat.le_refl 1
  | append_singleton text c ih =>
      rw [after_concat, next]
      split <;> simp only <;> omega

/-- A line tells how many line feeds were passed. -/
theorem Position.line_after (text : List Char) :
    (Position.first.after text).line = text.count '\n' + 1 := by
  induction text using List.reverseRecOn with
  | nil => rfl
  | append_singleton text c ih =>
      rw [after_concat, next, List.count_append]
      by_cases h : c = '\n' <;> simp [h, ih]

/-- A column tells how much of its line was passed. -/
theorem Position.column_after (text : List Char) :
    (Position.first.after text).column = (lastLine text).length + 1 := by
  induction text using List.reverseRecOn with
  | nil => rfl
  | append_singleton text c ih =>
      rw [after_concat, next, lastLine_concat]
      split
      · rfl
      · rw [List.length_append, List.length_singleton, ← ih]

/-- The first line of a text ends where its first line feed is. -/
theorem splitLines_eq (text : List Char) :
    splitLines text = text.takeWhile (· ≠ '\n') :: (splitLines text).tail := by
  induction text with
  | nil => rfl
  | cons c text ih =>
      rw [splitLines]
      split
      · next h => simp [h]
      · next h =>
          rw [ih]
          simp [h]

/-- The line of a position and those after it. -/
theorem splitLines_drop (before after : List Char) :
    (splitLines (before ++ after)).drop ((Position.first.after before).line - 1) =
      (lastLine before ++ after.takeWhile (· ≠ '\n')) :: (splitLines after).tail := by
  induction before using List.reverseRecOn generalizing after with
  | nil => exact splitLines_eq after
  | append_singleton before c ih =>
      have hline := Position.one_le_line before
      have hrest := ih (c :: after)
      rw [List.append_assoc, List.singleton_append, Position.after_concat, Position.next,
        lastLine_concat]
      by_cases hfeed : c = '\n'
      · subst hfeed
        have hnext : (Position.first.after before).line + 1 - 1 =
            (Position.first.after before).line - 1 + 1 := by omega
        simp only [if_true, hnext, ← List.drop_drop, hrest, List.drop_one, List.tail_cons,
          List.nil_append]
        rw [splitLines, if_pos rfl, List.tail_cons]
        exact splitLines_eq after
      · simp only [hfeed, if_false, hrest]
        rw [splitLines_eq after, splitLines, if_neg hfeed, splitLines_eq after]
        simp [hfeed]

/-- Without a line feed in between, columns are as far apart as the characters. -/
theorem Position.after_eq_of_no_feed
    (p : Position)
    {text : List Char}
    (h : '\n' ∉ text) :
    p.after text = ⟨p.line, p.column + text.length⟩ := by
  induction text generalizing p with
  | nil => rfl
  | cons c text ih =>
      rw [List.mem_cons, not_or] at h
      change (p.next c).after text = _
      rw [ih _ h.2, next, if_neg (Ne.symm h.1), List.length_cons]
      simp only [Position.mk.injEq, true_and]
      omega

theorem Position.line_le_after (p : Position) (text : List Char) : p.line ≤ (p.after text).line := by
  induction text generalizing p with
  | nil => exact Nat.le_refl _
  | cons c text ih =>
      refine Nat.le_trans ?_ (ih (p.next c))
      rw [next]
      split <;> simp

theorem Position.line_lt_of_feed
    (p : Position)
    {text : List Char}
    (h : '\n' ∈ text) :
    p.line < (p.after text).line := by
  obtain ⟨before, after, rfl⟩ := List.append_of_mem h
  rw [after_append]
  refine Nat.lt_of_lt_of_le ?_ (((p.after before).next '\n').line_le_after after)
  exact Nat.lt_succ_of_le (p.line_le_after before)

theorem length_takeWhile_lt
    {text longer : List Char}
    (h : '\n' ∈ text)
    (hlonger : text <+: longer) :
    (longer.takeWhile (· ≠ '\n')).length < text.length := by
  obtain ⟨more, rfl⟩ := hlonger
  induction text with
  | nil => cases h
  | cons c text ih =>
      rw [List.cons_append, List.takeWhile_cons]
      split
      · next hc =>
          have hmem : '\n' ∈ text := (List.mem_cons.mp h).resolve_left fun heq => by
            simp [← heq] at hc
          exact Nat.succ_lt_succ (ih hmem)
      · exact Nat.succ_pos _

end Lines

section Table

/-- The search finds the number of those that are at most `x`, if these come first. -/
theorem countUpTo_eq
    {xs : Array Nat}
    {x count low high : Nat}
    (hlow : low ≤ count)
    (hhigh : count ≤ high)
    (hearly : ∀ i < count, xs.getD i 0 ≤ x)
    (hlate : ∀ i, count ≤ i → i < high → x < xs.getD i 0) :
    countUpTo xs x low high = count := by
  fun_induction countUpTo xs x low high with
  | case1 low high hlt middle hx ih =>
      have hcount : count ≤ middle := by
        by_contra hless
        have := hearly middle (by omega)
        omega
      exact ih hlow hcount fun i hi hmiddle => hlate i hi (by omega)
  | case2 low high hlt middle hx ih =>
      have hcount : middle + 1 ≤ count := by
        by_contra hless
        exact hx (hlate middle (by omega) (by omega))
      exact ih hcount hhigh hlate
  | case3 low high hle => omega

theorem countUpTo_append
    {early late : List Nat}
    {x : Nat}
    (hearly : ∀ n ∈ early, n ≤ x)
    (hlate : ∀ n ∈ late, x < n) :
    countUpTo (early ++ late).toArray x 0 (early ++ late).toArray.size = early.length := by
  have hget (i : Nat) : (early ++ late).toArray.getD i 0 = ((early ++ late)[i]?).getD 0 := by simp
  refine countUpTo_eq (Nat.zero_le _) (by simp) (fun i hi => ?_) fun i hi hsize => ?_
  · rw [hget, List.getElem?_append_left hi, List.getElem?_eq_getElem hi]
    exact hearly _ (List.getElem_mem hi)
  · have hlt : i - early.length < late.length := by
      simp only [List.size_toArray, List.length_append] at hsize
      omega
    rw [hget, List.getElem?_append_right hi, List.getElem?_eq_getElem hlt]
    exact hlate _ (List.getElem_mem hlt)

/-- The offsets behind the line feeds of a text that begins at an offset. -/
def startsBehind (text : List Char) (offset : Nat) : List Nat :=
  (text.zipIdx offset).filterMap fun (c, i) => if c = '\n' then some (i + 1) else none

theorem startsBehind_append (before after : List Char) (offset : Nat) :
    startsBehind (before ++ after) offset =
      startsBehind before offset ++ startsBehind after (offset + before.length) := by
  simp [startsBehind, List.zipIdx_append]

theorem startsBehind_concat (text : List Char) (c : Char) :
    startsBehind (text ++ [c]) 0 =
      startsBehind text 0 ++ if c = '\n' then [text.length + 1] else [] := by
  rw [startsBehind_append]
  by_cases h : c = '\n' <;> simp [startsBehind, h]

theorem bounds_of_startsBehind
    {text : List Char}
    {offset n : Nat}
    (h : n ∈ startsBehind text offset) :
    offset < n ∧ n ≤ offset + text.length := by
  obtain ⟨⟨c, i⟩, hmem, hn⟩ := List.mem_filterMap.mp h
  obtain ⟨-, rfl⟩ : c = '\n' ∧ i + 1 = n := by simpa using hn
  have hi := List.mem_zipIdx hmem
  omega

theorem length_startsBehind (text : List Char) :
    (startsBehind text 0).length = text.count '\n' := by
  induction text using List.reverseRecOn with
  | nil => rfl
  | append_singleton text c ih =>
      rw [startsBehind_concat, List.length_append, ih, List.count_append]
      by_cases h : c = '\n' <;> simp [h]

/-- The last line of a text begins behind its last line feed. -/
theorem getD_startsBehind (text : List Char) (late : List Nat) :
    (0 :: (startsBehind text 0 ++ late)).getD (startsBehind text 0).length 0 +
      (lastLine text).length = text.length := by
  induction text using List.reverseRecOn generalizing late with
  | nil => rfl
  | append_singleton text c ih =>
      rw [startsBehind_concat, lastLine_concat]
      by_cases h : c = '\n'
      · simp [h]
      · have := ih late
        simp only [h, if_false, List.append_nil, List.length_append, List.length_singleton]
        omega

end Table

namespace SourceFile

theorem lineStarts_eq (file : SourceFile) {before after : List Char}
    (h : file.chars = before ++ after) :
    file.lineStarts =
      ((0 :: startsBehind before 0) ++ startsBehind after before.length).toArray := by
  have hstarts : file.lineStarts = (0 :: startsBehind file.chars 0).toArray := rfl
  rw [hstarts, h, startsBehind_append, Nat.zero_add, List.cons_append]

/-- What is looked up is the position that going through the text leads to. -/
theorem position_eq (file : SourceFile) (offset : Int) :
    file.position offset =
      if 0 ≤ offset ∧ offset ≤ file.length then
        .ok (Position.first.after (file.chars.take offset.toNat))
      else
        .error (.offsetOutside offset file.path) := by
  rw [position]
  split
  · next hbounds =>
      have hlength : (file.chars.take offset.toNat).length = offset.toNat := by
        have hchars : file.chars.length = file.length := String.length_toList
        rw [List.length_take]
        omega
      have hsplit := (List.take_append_drop offset.toNat file.chars).symm
      generalize file.chars.take offset.toNat = before at hlength hsplit ⊢
      have hstarts := file.lineStarts_eq hsplit
      have hcount : countUpTo file.lineStarts offset.toNat 0 file.lineStarts.size =
          (startsBehind before 0).length + 1 := by
        rw [hstarts]
        refine countUpTo_append (fun n hn => ?_) fun n hn => ?_
        · rcases List.mem_cons.mp hn with rfl | hn
          · exact Nat.zero_le _
          · have := bounds_of_startsBehind hn
            omega
        · have := bounds_of_startsBehind hn
          omega
      have hlast := getD_startsBehind before (startsBehind (file.chars.drop offset.toNat) before.length)
      have hline := Position.line_after before
      have hcolumn := Position.column_after before
      rw [← length_startsBehind] at hline
      have hget : file.lineStarts.getD (startsBehind before 0).length 0 =
          before.length - (lastLine before).length := by
        rw [hstarts, Array.getD_eq_getD_getElem?, List.getElem?_toArray, List.cons_append,
          ← List.getD_eq_getElem?_getD]
        omega
      have hposition : Position.first.after before =
          ⟨(startsBehind before 0).length + 1, (lastLine before).length + 1⟩ := by
        rw [← hline, ← hcolumn]
      have hle : (lastLine before).length ≤ before.length := by omega
      simp only [hcount, Nat.add_sub_cancel, hget, hposition, Except.ok.injEq, Position.mk.injEq,
        true_and]
      omega
  · rfl

/-- A line that is counted exists. -/
theorem line_eq
    {file : SourceFile} {number : Nat} {line : List Char}
    (hpos : 1 ≤ number)
    (h : file.lines[number - 1]? = some line) :
    file.line number = .ok (shownLine line) := by
  have hindex : ((number : Int) - 1).toNat = number - 1 := by omega
  have hnumber : (1 : Int) ≤ number := by omega
  simp [SourceFile.line, hindex, h, hnumber]

end SourceFile

end Lox
