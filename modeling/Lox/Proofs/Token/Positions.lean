import Lox.Proofs.Source.Lines
import Lox.Proofs.Token.Lossless
import Lox.Proofs.Token.Spelling

/-!
# Tokens have the positions of their offsets

A scan carries the position along, character by character, through white space, comments, strings and
faults, and gives it to the tokens. The position of an offset in a registered text is looked up in the
table of its lines. Both are the same (`positions_agree`), since either way it is the number of line
feeds and of the characters behind the last one that counts.
-/

namespace Lox

section Order

/-- The one position comes before the other. -/
def Position.Before (p q : Position) : Prop :=
  p.line < q.line ∨ p.line = q.line ∧ p.column < q.column

namespace Position

theorem Before.trans {p q r : Position} (h : p.Before q) (h' : q.Before r) : p.Before r := by
  simp only [Before] at *
  omega

theorem before_next (p : Position) (c : Char) : p.Before (p.next c) := by
  unfold next Before
  split
  · exact .inl (Nat.lt_succ_self _)
  · exact .inr ⟨rfl, Nat.lt_succ_self _⟩

/-- Whatever is passed, the position behind it comes later. -/
theorem before_after (p : Position) (c : Char) (text : List Char) :
    p.Before (p.after (c :: text)) := by
  induction text generalizing p c with
  | nil => exact p.before_next c
  | cons d text ih => exact (p.before_next c).trans (ih (p.next c) d)

end Position

end Order

section Offsets

namespace SourceFile

variable (file : SourceFile) {offset : Nat}

/-- Every offset in a text has a position, and so does the end of the text. -/
theorem position_of_le (h : offset ≤ file.length) :
    file.position offset = .ok (Position.first.after (file.chars.take offset)) := by
  rw [position_eq, if_pos (by omega), Int.toNat_natCast]

theorem position_before {later : Nat} (h : offset < later) (hlater : later ≤ file.length) :
    (Position.first.after (file.chars.take offset)).Before
      (Position.first.after (file.chars.take later)) := by
  have hchars : file.chars.length = file.length := String.length_toList
  obtain ⟨c, passed, hpassed⟩ :
      ∃ c passed, (file.chars.drop offset).take (later - offset) = c :: passed := by
    refine List.exists_cons_of_ne_nil fun hnil => ?_
    have hlength := congrArg List.length hnil
    simp only [List.length_take, List.length_drop, List.length_nil] at hlength
    omega
  have htake : file.chars.take later = file.chars.take offset ++ c :: passed := by
    rw [← hpassed, ← List.take_add, Nat.add_sub_cancel' (Nat.le_of_lt h)]
  rw [htake, Position.after_append]
  exact Position.before_after _ c passed

/-- The line of a position can be shown. -/
theorem line_of_position (offset : Nat) :
    ∃ text, file.line (Position.first.after (file.chars.take offset)).line = .ok text := by
  have hdrop := splitLines_drop (file.chars.take offset) (file.chars.drop offset)
  rw [List.take_append_drop] at hdrop
  have hline : file.lines[(Position.first.after (file.chars.take offset)).line - 1]? =
      some (lastLine (file.chars.take offset) ++ (file.chars.drop offset).takeWhile (· ≠ '\n')) := by
    rw [lines, ← List.head?_drop, hdrop, List.head?_cons]
  exact ⟨_, file.line_eq (Position.one_le_line _) hline⟩

end SourceFile

end Offsets

section Scanning

/-- A segment has the position that going through the text leads to. -/
theorem Cut.position
    {offset : Nat}
    {position : Position}
    {text : List Char}
    {segments : List Segment}
    (h : Cut offset position text segments) :
    ∀ s ∈ segments, s.position = position.after (text.take (s.offset - offset)) := by
  induction h with
  | nil => nofun
  | @cons offset position c taken rest piece segments hread hrest ih =>
      intro s hs
      rcases List.mem_cons.mp hs with rfl | hs
      · simp [Position.after]
      · have hle := (hrest.within s hs).1
        have hpassed : s.offset - offset =
            (c :: taken).length + (s.offset - (offset + 1 + taken.length)) := by
          simp only [List.length_cons]
          omega
        rw [ih s hs, hpassed, ← List.cons_append, List.take_length_add_append,
          Position.after_append]

/-- A token has the position that going through the text to its first character leads to. -/
theorem Token.position_of_scanEvents
    {file : Nat}
    {text : List Char}
    {token : Token}
    (h : .ok token ∈ scanEvents file text) :
    token.position = Position.first.after (text.take token.span.start.toNat) := by
  rcases List.mem_append.mp h with h | h
  · obtain ⟨segment, hsegment, hevent⟩ := List.mem_filterMap.mp h
    have hposition := (Cut.of_text text 0 Position.first).position segment hsegment
    have hstart : token.span.start = segment.offset := eventSpan_start hevent
    have hsame : token.position = segment.position := by
      unfold Segment.event? at hevent
      split at hevent
      · cases hevent
      · cases hevent
        rfl
      · cases hevent
    rw [hsame, hposition, hstart, Nat.sub_zero, Int.toNat_natCast]
  · cases List.mem_singleton.mp h
    simp [endToken, Span.ofLength]

end Scanning

/-- **Positions agree.** Every offset of a registered text, the end included, has a position: the line is
one more than the number of line feeds before the offset, the column one more than the number of
characters since the last of them, and the line can be shown. Of two offsets, the greater one has the
later position. And every token that is scanned from the text, in either mode and whatever faults come
before it, has the position of the offset at which it begins; where faults are passed over, the last
token is the end of the input. -/
theorem positions_agree (file : SourceFile) :
    (∀ offset : Nat, offset ≤ file.length →
      ∃ position text, file.position offset = .ok position ∧
        position.line = 1 + (file.chars.take offset).count '\n' ∧
        position.column = 1 + ((file.chars.take offset).reverse.takeWhile (· ≠ '\n')).length ∧
        file.line position.line = .ok text) ∧
      (∀ offset later : Nat, offset < later → later ≤ file.length →
        ∃ p q, file.position offset = .ok p ∧ file.position later = .ok q ∧ p.Before q) ∧
      (∀ collectAll, ∀ token ∈ (Scan.ofText file.id file.chars collectAll).tokens,
        token.span.file = file.id ∧ file.position token.span.start = .ok token.position) ∧
      ∃ final, (Scan.ofText file.id file.chars true).tokens.getLast? = some final ∧
        final.kind = .endOfInput ∧ final.span.start = file.length := by
  refine ⟨fun offset h => ?_, fun offset later hlt hle => ?_, fun collectAll token htoken => ?_, ?_⟩
  · obtain ⟨text, htext⟩ := file.line_of_position offset
    refine ⟨_, text, file.position_of_le h, ?_, ?_, htext⟩
    · rw [Position.line_after, Nat.add_comm]
    · rw [Position.column_after, Nat.add_comm, lastLine, List.length_reverse]
  · exact ⟨_, _, file.position_of_le (by omega), file.position_of_le hle,
      file.position_before hlt hle⟩
  · have hevent := Scan.mem_tokens_ofText htoken
    obtain ⟨hfile, hstart, hstop⟩ := within_of_scanEvents hevent
    have hle := (eventSpan (.ok token)).start_le_stop
    have hchars : file.chars.length = file.length := String.length_toList
    refine ⟨hfile, ?_⟩
    have hbounds : 0 ≤ token.span.start ∧ token.span.start ≤ file.length := by
      simp only [eventSpan] at hstart hstop hle
      omega
    rw [SourceFile.position_eq, if_pos hbounds, Token.position_of_scanEvents hevent]
  · refine ⟨endToken file.id file.chars, ?_, rfl, ?_⟩
    · rw [Scan.ofText_collect, List.getLast?_concat]
    · exact congrArg Nat.cast String.length_toList

end Lox
