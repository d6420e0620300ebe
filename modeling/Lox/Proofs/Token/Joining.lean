import Lox.Proofs.Token.Events
import Lox.Proofs.Tree.Relocation
import Mathlib.Data.List.Forall2

/-!
# Texts one after the other

The tokens of a text, a line feed and another text are those of the first text and, further on and
further down, those of the second, provided that there are no faults (`scanEvents_append`). The
number of the file only stands in the spans (`scanEvents_exchange`).
-/

namespace Lox

section Segments

/-- The segment yields what another segment yields, relocated. -/
structure Segment.Relocated (q : Relocation) (file file' : Nat) (s s' : Segment) : Prop where
  piece : s'.piece = s.piece
  chars : s'.chars = s.chars
  position : s'.position = q.position s.position
  span : Span.ofLength file' s'.offset s.chars.length =
    q.span (.ofLength file s.offset s.chars.length)

theorem Segment.Relocated.event?_eq
    {q : Relocation}
    {file file' : Nat}
    {s s' : Segment}
    (h : Relocated q file file' s s')
    (hsound : s.piece.IsSound) :
    s'.event? file' = (s.event? file).map (Except.map (move q)) := by
  unfold Segment.event?
  rw [h.piece, h.chars, h.position, h.span]
  cases hpiece : s.piece with
  | skipped => rfl
  | token kind literal => rfl
  | fault cause => exact absurd hsound (by simp [hpiece, Piece.IsSound])

/-- Only a fault yields a fault. -/
theorem Segment.isSound_of_event
    {s : Segment}
    {file : Nat}
    (h : ∀ e, s.event? file ≠ some (.error e)) :
    s.piece.IsSound := by
  cases hpiece : s.piece with
  | skipped => trivial
  | token kind literal => trivial
  | fault cause =>
      exact absurd (by rw [Segment.event?, hpiece]) (h ⟨cause, s.faultSpan file cause⟩)

/-- The segments of a text that has tokens only. -/
theorem isSound_of_scanEvents
    {file : Nat}
    {text : List Char}
    {tokens : List Token}
    (h : scanEvents file text = tokens.map .ok) :
    ∀ s ∈ segments text, s.piece.IsSound := by
  intro s hs
  suffices hevent : ∀ e, s.event? file ≠ some (.error e) from s.isSound_of_event hevent
  intro e he
  have hmem : (.error e : Except LexError Token) ∈ tokens.map .ok :=
    h ▸ List.mem_append_left _ (List.mem_filterMap.mpr ⟨s, hs, he⟩)
  obtain ⟨token, -, htoken⟩ := List.mem_map.mp hmem
  cases htoken

theorem filterMap_event?_relocated
    {q : Relocation}
    {file file' : Nat}
    {segments others : List Segment}
    (h : List.Forall₂ (Segment.Relocated q file file') segments others)
    (hsound : ∀ s ∈ segments, s.piece.IsSound) :
    others.filterMap (·.event? file') =
      (segments.filterMap (·.event? file)).map (Except.map (move q)) := by
  induction h with
  | nil => rfl
  | cons hhead _ ih =>
      have hevent := hhead.event?_eq (hsound _ List.mem_cons_self)
      have hrest := ih fun s hs => hsound s (List.mem_cons_of_mem _ hs)
      rw [List.filterMap_cons, List.filterMap_cons, hevent]
      cases Segment.event? _ file with
      | none => exact hrest
      | some event => exact congrArg (Except.map (move q) event :: ·) hrest

end Segments

section Texts

/-- What a text yields at another place if its segments and its end are found there. -/
theorem scanEvents_relocated
    {q : Relocation}
    {file : Nat}
    {text : List Char}
    {tokens : List Token}
    (h : scanEvents file text = tokens.map .ok)
    {file' : Nat}
    {others : List Segment}
    {final : Token}
    (hsegments : List.Forall₂ (Segment.Relocated q file file') (segments text) others)
    (hfinal : final = move q (endToken file text)) :
    others.filterMap (·.event? file') ++ [.ok final] = (tokens.map (move q)).map .ok := by
  rw [filterMap_event?_relocated hsegments (isSound_of_scanEvents h), hfinal]
  have hmap := congrArg (List.map (Except.map (move q))) h
  rw [scanEvents, List.map_append] at hmap
  refine hmap.trans ?_
  rw [List.map_map, List.map_map]
  rfl

/-- The tokens of a text registered under another number. -/
theorem scanEvents_exchange
    {file : Nat}
    {text : List Char}
    {tokens : List Token}
    (h : scanEvents file text = tokens.map .ok)
    (file' : Nat) :
    scanEvents file' text = (tokens.map (move (.exchange file file'))).map .ok := by
  have hspan (offset length : Nat) : Span.ofLength file' offset length =
      (Relocation.exchange file file').span (.ofLength file offset length) := by
    simp [Span.ofLength, Relocation.exchange]
  refine scanEvents_relocated h (List.forall₂_same.mpr fun s _ => ⟨rfl, rfl, rfl, hspan _ _⟩) ?_
  rw [endToken, hspan]
  rfl

theorem Span.ofLength_shift (file offset length distance lines : Nat) :
    Span.ofLength file (offset + distance) length =
      (Relocation.shift distance lines).span (.ofLength file offset length) := by
  simp only [Span.ofLength, Relocation.shift, Span.mk.injEq, true_and]
  omega

/-- The position behind a text, a line feed and another text. -/
theorem Position.after_line (text more : List Char) :
    Position.first.after (text ++ '\n' :: more) =
      { Position.first.after more with
        line := (Position.first.after more).line + (Position.first.after text).line } := by
  rw [← Position.after_below, Position.after_append]
  change Position.after (Position.next _ _) more = _
  simp only [Position.next, if_true, Position.first, Nat.add_comm]

/-- The segments of a text, a line feed and another text. -/
theorem segments_append
    {text : List Char}
    (hsound : ∀ s ∈ segments text, s.piece.IsSound)
    (more : List Char) :
    segments (text ++ '\n' :: more) =
      segments text ++
        ⟨text.length, Position.first.after text, ['\n'], .skipped⟩ ::
          (segments more).map (·.shift (text.length + 1) (Position.first.after text).line) := by
  have hmore := (Cut.of_text more 0 Position.first).shift (text.length + 1)
    (Position.first.after text).line
  have hposition : Position.mk (Position.first.line + (Position.first.after text).line)
      Position.first.column = (Position.first.after text).after ['\n'] := by
    simp only [Position.after, List.foldl_cons, List.foldl_nil, Position.next, if_true,
      Position.first, Nat.add_comm]
  rw [hposition, Nat.zero_add] at hmore
  refine Cut.unique (Cut.of_text _ 0 Position.first) ?_
  refine (Cut.of_text text 0 Position.first).append hsound ?_
  rw [Nat.zero_add]
  exact .line_feed hmore

/-- The tokens of a text but for the one that ends it. -/
theorem events_eq_dropLast
    {file : Nat}
    {text : List Char}
    {tokens : List Token}
    (h : scanEvents file text = tokens.map .ok) :
    (segments text).filterMap (·.event? file) = tokens.dropLast.map .ok := by
  have := congrArg List.dropLast h
  rwa [scanEvents, List.dropLast_concat, ← List.map_dropLast] at this

/-- The tokens of a text, a line feed and another text. -/
theorem scanEvents_append
    {file : Nat}
    {text more : List Char}
    {tokens others : List Token}
    (h : scanEvents file text = tokens.map .ok)
    (hmore : scanEvents file more = others.map .ok) :
    scanEvents file (text ++ '\n' :: more) =
      (tokens.dropLast ++
        others.map (move (.shift (text.length + 1) (Position.first.after text).line))).map .ok := by
  rw [List.map_append, ← events_eq_dropLast h, scanEvents, segments_append (isSound_of_scanEvents h),
    List.filterMap_append, List.append_assoc]
  congr 1
  rw [List.filterMap_cons_none rfl]
  refine scanEvents_relocated hmore ?_ ?_
  · refine List.forall₂_map_right_iff.mpr (List.forall₂_same.mpr fun s _ => ?_)
    exact ⟨rfl, rfl, rfl, Span.ofLength_shift ..⟩
  · rw [endToken, Position.after_line]
    have hlength : (text ++ '\n' :: more).length = more.length + (text.length + 1) := by
      simp only [List.length_append, List.length_cons]
      omega
    rw [hlength, Span.ofLength_shift file more.length 0 _ (Position.first.after text).line]
    rfl

/-- The last segment of the text is a comment to the end of the line. -/
def EndsInComment (text : List Char) : Prop :=
  ∃ last ∈ (segments text).getLast?, ['/', '/'] <+: last.chars ∧ last.piece = .skipped

instance (text : List Char) : Decidable (EndsInComment text) :=
  inferInstanceAs
    (Decidable (∃ last ∈ (segments text).getLast?, ['/', '/'] <+: last.chars ∧ last.piece = .skipped))

/-- The tokens of a text and a semicolon: one more, unless the semicolon stands in a comment. -/
theorem scanEvents_append_semicolon
    {file : Nat}
    {text : List Char}
    {tokens : List Token}
    (h : scanEvents file text = tokens.map .ok) :
    (∃ semicolon : Token, semicolon.kind = .semicolon ∧
      scanEvents file (text ++ [';']) =
        (tokens.dropLast ++ [semicolon, endToken file (text ++ [';'])]).map .ok) ∨
    EndsInComment text ∧
      scanEvents file (text ++ [';']) =
        (tokens.dropLast ++ [endToken file (text ++ [';'])]).map .ok := by
  have hevents := events_eq_dropLast h
  rcases (Cut.of_text text 0 Position.first).append_semicolon (isSound_of_scanEvents h) with
    hcut | ⟨init, last, hsegments, hcomment, hpiece, hcut⟩
  · have hlonger : segments (text ++ [';']) = segments text ++ [_] :=
      (Cut.of_text _ 0 Position.first).unique hcut
    refine .inl ⟨⟨.semicolon, ";", none, (Position.first.after text),
      .ofLength file (0 + text.length) 1⟩, rfl, ?_⟩
    rw [scanEvents, hlonger, List.filterMap_append, hevents, List.map_append, List.append_assoc]
    rfl
  · have hlonger : segments (text ++ [';']) = init ++ [_] :=
      (Cut.of_text _ 0 Position.first).unique hcut
    have hlast : segments text = init ++ [last] := hsegments
    refine .inr ⟨⟨last, by rw [hlast, List.getLast?_concat]; rfl, hcomment, hpiece⟩, ?_⟩
    have hsilent (chars : List Char) :
        [{ last with chars := chars }].filterMap (fun s : Segment => s.event? file) = [] := by
      simp [Segment.event?, hpiece]
    rw [hlast, List.filterMap_append, hsilent last.chars, List.append_nil] at hevents
    rw [scanEvents, hlonger, List.filterMap_append, hevents, hsilent, List.append_nil, List.map_append]
    rfl

/-- The last token of a text is the one that ends it. -/
theorem tokens_eq_concat
    {file : Nat}
    {text : List Char}
    {tokens : List Token}
    (h : scanEvents file text = tokens.map .ok) :
    tokens = tokens.dropLast ++ [endToken file text] := by
  have hlast := congrArg List.getLast? h
  rw [scanEvents, List.getLast?_concat, List.getLast?_map] at hlast
  obtain ⟨token, htoken, hend⟩ := Option.map_eq_some_iff.mp hlast.symm
  cases hend
  exact (List.dropLast_append_getLast? _ htoken).symm

end Texts

end Lox
