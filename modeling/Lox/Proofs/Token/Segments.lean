import Lox.Token.Scan

/-!
# Cutting a text into segments

`Cut` says how a text is cut: a first segment, whose length `Piece.read` decides on, and then the
rest. Every text is cut in exactly one way, into what `cutSegments` computes. What a segment is
depends only on the text up to its end and on the character after it (`Piece.Local`), so a text
without faults is cut in the same way if a line feed and more text follow it (`Cut.append`), and the
rest is cut as it would be by itself, only further on (`Cut.shift`). A semicolon at the end of such a
text is a segment of its own, unless it stands in a comment (`Cut.append_semicolon`).
-/

namespace Lox

namespace Piece

/-- Is the piece no fault? -/
def IsSound : Piece → Prop
  | .fault _ => False
  | _ => True

/-- No token of more than one character goes on with this one. -/
structure Separates (stop : Char) : Prop where
  operator : stop ∉ ['*', '/', '=', '>', '&', '|', '.']
  digit : stop.isDigit = false
  name : continuesName stop = false

theorem separates_line_feed : Separates '\n' where
  operator := by decide
  digit := by decide
  name := by decide

theorem separates_semicolon : Separates ';' where
  operator := by decide
  digit := by decide
  name := by decide

/-- A reader of segments stays within the text, and the character `stop` behind a sound segment hides
what follows from it. -/
structure Local (stop : Char) (read : List Char → Piece × Nat) : Prop where
  le : ∀ rest, (read rest).2 ≤ rest.length
  append : ∀ rest more, (read rest).1.IsSound → read (rest ++ stop :: more) = read rest

namespace Local

variable {stop : Char}

theorem const (piece : Piece) : Local stop fun _ => (piece, 0) where
  le _ := Nat.zero_le _
  append _ _ _ := rfl

theorem ite
    {p : Prop}
    [Decidable p]
    {read other : List Char → Piece × Nat}
    (hread : p → Local stop read)
    (hother : ¬p → Local stop other) :
    Local stop fun rest => if p then read rest else other rest := by
  split
  · next h => exact hread h
  · next h => exact hother h

end Local

section Readers

variable {stop : Char}

theorem oneOrTwo_local {second : Char} (two one : Piece) (h : stop ≠ second) :
    Local stop (oneOrTwo second two one) where
  le rest := by
    cases rest with
    | nil => exact Nat.le_refl 0
    | cons c rest =>
        simp only [oneOrTwo]
        split <;> simp
  append rest more _ := by
    cases rest with
    | nil => exact if_neg h
    | cons c rest => rfl

theorem readEquals_local (hequal : stop ≠ '=') (hgreater : stop ≠ '>') : Local stop readEquals where
  le rest := by
    unfold readEquals
    split <;> simp
  append rest more _ := by
    match rest with
    | [] =>
        rw [List.nil_append]
        unfold readEquals
        split <;> simp_all
    | c :: rest =>
        simp only [List.cons_append]
        unfold readEquals
        split <;> simp_all

theorem blockCommentLength?_le
    {rest : List Char}
    {taken length : Nat}
    (h : blockCommentLength? rest taken = some length) :
    length ≤ taken + rest.length := by
  fun_induction blockCommentLength? rest taken with
  | case1 rest taken => cases h; simp
  | case2 c rest taken hne ih =>
      have := ih h
      simp only [List.length_cons]
      omega
  | case3 => cases h

theorem blockCommentLength?_append
    {rest : List Char}
    {taken length : Nat}
    (h : blockCommentLength? rest taken = some length)
    (more : List Char) :
    blockCommentLength? (rest ++ more) taken = some length := by
  fun_induction blockCommentLength? rest taken with
  | case1 rest taken => exact h
  | case2 c rest taken hne ih =>
      rw [List.cons_append, blockCommentLength?]
      · exact ih h
      · intro tail hstar hslash
        match rest, h, hne with
        | d :: rest, _, hne =>
            obtain ⟨rfl, rfl⟩ := List.cons.inj hslash
            exact hne rest hstar rfl
  | case3 => cases h

theorem takeWhile_append_stop (test : Char → Bool) (htest : test stop = false)
    (rest more : List Char) :
    (rest ++ stop :: more).takeWhile test = rest.takeWhile test := by
  induction rest with
  | nil => exact List.takeWhile_cons_of_neg (by simp [htest])
  | cons c rest ih =>
      rw [List.cons_append, List.takeWhile_cons, List.takeWhile_cons, ih]

theorem readSlash_le (rest : List Char) : (readSlash rest).2 ≤ rest.length := by
  unfold readSlash
  split
  · next rest =>
      have := (List.takeWhile_sublist (· != '\n') (l := rest)).length_le
      simp only [List.length_cons]
      omega
  · next rest =>
      split
      · next length h =>
          have := blockCommentLength?_le h
          simp only [List.length_cons]
          omega
      · simp only [List.length_cons]
        omega
  · exact Nat.zero_le _

/-- Only a line feed ends a comment that begins with two slashes. -/
theorem readSlash_append
    (hstop : Separates stop)
    {rest : List Char}
    (more : List Char)
    (hsound : (readSlash rest).1.IsSound)
    (hcomment : rest.head? = some '/' → stop = '\n') :
    readSlash (rest ++ stop :: more) = readSlash rest := by
  unfold readSlash at hsound ⊢
  split at hsound
  · next rest =>
      obtain rfl := hcomment rfl
      have htest : ('\n' != '\n') = false := rfl
      simp only [List.cons_append, takeWhile_append_stop (· != '\n') htest]
  · next rest =>
      split at hsound
      · next length hfound =>
          simp only [List.cons_append, blockCommentLength?_append hfound]
      · contradiction
  · next hline hblock =>
      have hoperator := hstop.operator
      cases rest with
      | nil => simp_all
      | cons c rest => simp_all

theorem readSlash_local : Local '\n' readSlash where
  le := readSlash_le
  append _ more h := readSlash_append separates_line_feed more h fun _ => rfl

theorem readStringBody_le (quote : Char) (rest decoded : List Char) (taken : Nat) :
    (readStringBody quote rest decoded taken).2 ≤ taken + rest.length := by
  fun_induction readStringBody quote rest decoded taken with
  | case1 => simp
  | case2 => simp
  | case3 => simp
  | case4 => simp
  | case5 taken d rest hne ih =>
      simp only [List.length_cons]
      omega
  | case6 decoded taken c d rest hquote hescape ih =>
      simp only [List.length_cons] at ih ⊢
      omega

theorem readStringBody_append
    (quote : Char)
    (rest decoded : List Char)
    (taken : Nat)
    (more : List Char)
    (h : (readStringBody quote rest decoded taken).1.IsSound) :
    readStringBody quote (rest ++ more) decoded taken =
      readStringBody quote rest decoded taken := by
  fun_induction readStringBody quote rest decoded taken with
  | case1 => contradiction
  | case2 decoded taken =>
      cases more with
      | nil => simp [readStringBody]
      | cons d more => simp [readStringBody]
  | case3 => contradiction
  | case4 decoded taken d rest => simp [readStringBody]
  | case5 decoded taken d rest hne ih =>
      simp only [List.cons_append, readStringBody, if_neg hne, if_true]
      exact ih h
  | case6 decoded taken c d rest hquote hescape ih =>
      simp only [List.cons_append, readStringBody, if_neg hquote, if_neg hescape]
      exact ih h

theorem readString_local (quote : Char) : Local stop fun rest => readStringBody quote rest [] 0 where
  le rest := Nat.le_trans (readStringBody_le quote rest [] 0) (Nat.le_of_eq (Nat.zero_add _))
  append rest more h := readStringBody_append quote rest [] 0 (stop :: more) h

theorem dropWhile_append_stop (test : Char → Bool) (htest : test stop = false)
    (rest more : List Char) :
    (rest ++ stop :: more).dropWhile test = rest.dropWhile test ++ stop :: more := by
  induction rest with
  | nil => exact List.dropWhile_cons_of_neg (by simp [htest])
  | cons c rest ih =>
      rw [List.cons_append, List.dropWhile_cons, List.dropWhile_cons, ih]
      split <;> rfl

theorem fractionDigits_append (hpoint : stop ≠ '.') (hdigit : stop.isDigit = false)
    (rest more : List Char) :
    fractionDigits (rest ++ stop :: more) = fractionDigits rest := by
  cases rest with
  | nil =>
      rw [List.nil_append]
      unfold fractionDigits
      split <;> simp_all
  | cons c rest =>
      unfold fractionDigits
      split
      · next after h =>
          obtain ⟨rfl, rfl⟩ := List.cons.inj h
          exact takeWhile_append_stop _ hdigit rest more
      · next h => split <;> simp_all

theorem readNumber_local (hstop : Separates stop) (c : Char) : Local stop (readNumber c) where
  le rest := by
    have hsplit := congrArg List.length
      (List.takeWhile_append_dropWhile (p := Char.isDigit) (l := rest))
    rw [List.length_append] at hsplit
    simp only [readNumber]
    generalize rest.dropWhile Char.isDigit = after at hsplit
    unfold fractionDigits
    split
    · next after =>
        have := (List.takeWhile_sublist Char.isDigit (l := after)).length_le
        simp only [List.length_cons] at hsplit
        split <;> omega
    · simp only [List.isEmpty_nil, if_true, List.length_nil]
      omega
  append rest more _ := by
    have hpoint : stop ≠ '.' := fun h => hstop.operator (by simp [h])
    simp only [readNumber, takeWhile_append_stop Char.isDigit hstop.digit,
      dropWhile_append_stop Char.isDigit hstop.digit, fractionDigits_append hpoint hstop.digit]

theorem readName_local (hstop : Separates stop) (c : Char) : Local stop (readName c) where
  le rest := (List.takeWhile_sublist continuesName (l := rest)).length_le
  append rest more _ := by
    simp only [readName, takeWhile_append_stop continuesName hstop.name]

theorem read_local (hstop : Separates stop) (c : Char) (hslash : c = '/' → stop = '\n') :
    Local stop (read c) := by
  have hne (second : Char) (hsecond : second ∈ ['*', '/', '=', '>', '&', '|', '.']) :
      stop ≠ second :=
    fun h => hstop.operator (h ▸ hsecond)
  have h : Local stop fun rest => read c rest := by
    unfold read
    split
    · exact .const _
    · refine .ite (fun _ => oneOrTwo_local _ _ (hne '*' (by simp))) fun _ =>
        .ite (fun h => ?_) fun _ =>
        .ite (fun _ => readEquals_local (hne '=' (by simp)) (hne '>' (by simp))) fun _ =>
        .ite (fun _ => oneOrTwo_local _ _ (hne '=' (by simp))) fun _ =>
        .ite (fun _ => oneOrTwo_local _ _ (hne '=' (by simp))) fun _ =>
        .ite (fun _ => oneOrTwo_local _ _ (hne '=' (by simp))) fun _ =>
        .ite (fun _ => oneOrTwo_local _ _ (hne '&' (by simp))) fun _ =>
        .ite (fun _ => oneOrTwo_local _ _ (hne '|' (by simp))) fun _ =>
        .ite (fun _ => .const _) fun _ => .ite (fun _ => readString_local c) fun _ =>
        .ite (fun _ => readNumber_local hstop c) fun _ =>
        .ite (fun _ => readName_local hstop c) fun _ => .const _
      exact hslash h ▸ readSlash_local
  exact h

theorem read_le (c : Char) (rest : List Char) : (read c rest).2 ≤ rest.length :=
  (read_local separates_line_feed c fun _ => rfl).le rest

/-- A semicolon behind a sound segment is none of it, unless it stands in a comment that no line feed
has ended. -/
theorem read_append_semicolon
    (c : Char)
    (rest : List Char)
    (hsound : (read c rest).1.IsSound) :
    read c (rest ++ [';']) = read c rest ∨
      ['/', '/'] <+: c :: rest ∧ read c rest = (.skipped, rest.length) ∧
        read c (rest ++ [';']) = (.skipped, rest.length + 1) := by
  by_cases hc : c = '/'
  case neg =>
    exact .inl ((read_local separates_semicolon c fun h => absurd h hc).append rest [] hsound)
  subst hc
  by_cases hhead : rest.head? = some '/'
  case neg => exact .inl (readSlash_append separates_semicolon [] hsound fun h => absurd h hhead)
  obtain ⟨comment, rfl⟩ := List.head?_eq_some_iff.mp hhead
  have hread (comment : List Char) : read '/' ('/' :: comment) =
      (.skipped, 1 + (comment.takeWhile (· != '\n')).length) := rfl
  rw [List.cons_append, hread, hread, List.takeWhile_append]
  split
  · next hall =>
      refine .inr ⟨⟨comment, rfl⟩, ?_, ?_⟩
      · rw [hall, List.length_cons, Nat.add_comm]
      · have hsemicolon : [';'].takeWhile (· != '\n') = [';'] := rfl
        rw [hsemicolon, Nat.add_comm, List.length_append]
        rfl
  · exact .inl rfl

end Readers

end Piece

/-- The text, which begins at the offset and the position, is cut into the segments. -/
inductive Cut : Nat → Position → List Char → List Segment → Prop
  | nil
      {offset : Nat}
      {position : Position} :
      Cut offset position [] []
  | cons
      {offset : Nat}
      {position : Position}
      {c : Char}
      {taken rest : List Char}
      {piece : Piece}
      {segments : List Segment}
      (hread : Piece.read c (taken ++ rest) = (piece, taken.length))
      (hrest : Cut (offset + 1 + taken.length) (position.after (c :: taken)) rest segments) :
      Cut offset position (c :: (taken ++ rest)) (⟨offset, position, c :: taken, piece⟩ :: segments)

section Computation

theorem cutSegments_pending
    (text : List Char)
    (pending offset : Nat)
    (position : Position)
    (done : List Segment)
    (h : pending ≤ text.length) :
    cutSegments text pending offset position done =
      cutSegments (text.drop pending) 0 (offset + pending) (position.after (text.take pending))
        done := by
  induction text generalizing pending offset position with
  | nil =>
      obtain rfl : pending = 0 := Nat.le_zero.mp h
      rfl
  | cons c text ih =>
      cases pending with
      | zero => rfl
      | succ pending =>
          rw [cutSegments, ih _ _ _ (Nat.le_of_succ_le_succ h), Nat.add_right_comm]
          rfl

theorem cutSegments_done
    (text : List Char)
    (pending offset : Nat)
    (position : Position)
    (done : List Segment) :
    cutSegments text pending offset position done =
      done.reverse ++ cutSegments text pending offset position [] := by
  induction text generalizing pending offset position done with
  | nil => simp [cutSegments]
  | cons c text ih =>
      cases pending with
      | zero =>
          simp only [cutSegments]
          rw [ih, ih _ _ _ [_]]
          simp
      | succ pending => exact ih ..

/-- Every text is cut into the segments that are computed. -/
theorem Cut.of_text (text : List Char) (offset : Nat) (position : Position) :
    Cut offset position text (cutSegments text 0 offset position []) := by
  match text with
  | [] => exact .nil
  | c :: text =>
      obtain ⟨⟨piece, extra⟩, hread⟩ : ∃ answer, Piece.read c text = answer := ⟨_, rfl⟩
      have hextra : extra ≤ text.length := by
        have := Piece.read_le c text
        rwa [hread] at this
      have hlength : (text.take extra).length = extra := List.length_take_of_le hextra
      have hcut := Cut.of_text (text.drop extra) (offset + 1 + extra)
        (position.after (c :: text.take extra))
      simp only [cutSegments, hread]
      rw [cutSegments_pending _ _ _ _ _ hextra, cutSegments_done]
      have hfound : Piece.read c (text.take extra ++ text.drop extra) =
          (piece, (text.take extra).length) := by
        rw [List.take_append_drop, hread, hlength]
      have h := Cut.cons hfound (by rwa [hlength])
      rwa [List.take_append_drop] at h
termination_by text.length
decreasing_by
  simp only [List.length_drop, List.length_cons]
  omega

/-- There is only one way to cut a text. -/
theorem Cut.unique
    {offset : Nat}
    {position : Position}
    {text : List Char}
    {segments others : List Segment}
    (h : Cut offset position text segments)
    (hother : Cut offset position text others) :
    segments = others := by
  induction h generalizing others with
  | nil => cases hother; rfl
  | @cons offset position c taken rest piece segments hread hrest ih =>
      generalize htext : c :: (taken ++ rest) = text at hother
      cases hother with
      | nil => cases htext
      | @cons _ _ c' taken' rest' piece' segments' hread' hrest' =>
          obtain ⟨rfl, hsplit⟩ := List.cons.inj htext
          rw [← hsplit, hread] at hread'
          obtain ⟨rfl, hlength⟩ := Prod.mk.inj hread'
          obtain ⟨rfl, rfl⟩ := List.append_inj hsplit hlength
          rw [ih hrest']

end Computation

section Joining

theorem Position.after_append (p : Position) (cs ds : List Char) :
    p.after (cs ++ ds) = (p.after cs).after ds :=
  List.foldl_append ..

/-- A text further down. -/
theorem Position.after_below (p : Position) (lines : Nat) (cs : List Char) :
    Position.after { p with line := p.line + lines } cs =
      { p.after cs with line := (p.after cs).line + lines } := by
  induction cs generalizing p with
  | nil => rfl
  | cons c cs ih =>
      have hnext : Position.next { p with line := p.line + lines } c =
          { p.next c with line := (p.next c).line + lines } := by
        unfold Position.next
        split
        · simp only [Position.mk.injEq, and_true]
          omega
        · rfl
      exact (congrArg (Position.after · cs) hnext).trans (ih (p.next c))

/-- The segment of a text that begins further on and further down. -/
def Segment.shift (distance lines : Nat) (segment : Segment) : Segment :=
  { segment with
    offset := segment.offset + distance
    position := { segment.position with line := segment.position.line + lines } }

/-- How a text is cut does not depend on where it begins. -/
theorem Cut.shift
    {offset : Nat}
    {position : Position}
    {text : List Char}
    {segments : List Segment}
    (h : Cut offset position text segments)
    (distance lines : Nat) :
    Cut (offset + distance) { position with line := position.line + lines } text
      (segments.map (·.shift distance lines)) := by
  induction h with
  | nil => exact .nil
  | @cons offset position c taken rest piece segments hread hrest ih =>
      refine .cons hread ?_
      rw [Position.after_below, show offset + distance + 1 + taken.length =
        offset + 1 + taken.length + distance by omega]
      exact ih

/-- A text without faults is cut in the same way if a line feed and another text follow it. -/
theorem Cut.append
    {offset : Nat}
    {position : Position}
    {text more : List Char}
    {segments others : List Segment}
    (h : Cut offset position text segments)
    (hsound : ∀ segment ∈ segments, segment.piece.IsSound)
    (hmore : Cut (offset + text.length) (position.after text) ('\n' :: more) others) :
    Cut offset position (text ++ '\n' :: more) (segments ++ others) := by
  induction h with
  | nil => exact hmore
  | @cons offset position c taken rest piece segments hread hrest ih =>
      rw [List.cons_append, List.append_assoc, List.cons_append]
      refine .cons ?_ (ih (fun s hs => hsound s (List.mem_cons_of_mem _ hs)) ?_)
      · have hpiece : (Piece.read c (taken ++ rest)).1.IsSound := by
          rw [hread]
          exact hsound _ List.mem_cons_self
        rw [← List.append_assoc, 
          (Piece.read_local Piece.separates_line_feed c fun _ => rfl).append _ _ hpiece, hread]
      · have hoffset : offset + (c :: (taken ++ rest)).length =
            offset + 1 + taken.length + rest.length := by
          simp only [List.length_cons, List.length_append]
          omega
        rwa [hoffset, ← List.cons_append, Position.after_append] at hmore

/-- A semicolon at the end of a text without faults is a segment of its own, or it prolongs the last
segment, a comment. -/
theorem Cut.append_semicolon
    {offset : Nat}
    {position : Position}
    {text : List Char}
    {segments : List Segment}
    (h : Cut offset position text segments)
    (hsound : ∀ segment ∈ segments, segment.piece.IsSound) :
    Cut offset position (text ++ [';']) (segments ++
      [⟨offset + text.length, position.after text, [';'], .plain .semicolon⟩]) ∨
    ∃ init last, segments = init ++ [last] ∧ ['/', '/'] <+: last.chars ∧ last.piece = .skipped ∧
      Cut offset position (text ++ [';']) (init ++ [{ last with chars := last.chars ++ [';'] }]) := by
  induction h with
  | nil =>
      have hread : Piece.read ';' ([] ++ []) = (.plain .semicolon, ([] : List Char).length) := rfl
      exact .inl (.cons hread .nil)
  | @cons offset position c taken rest piece segments hread hrest ih =>
      have hpiece : (Piece.read c (taken ++ rest)).1.IsSound := by
        rw [hread]
        exact hsound _ List.mem_cons_self
      rcases Piece.read_append_semicolon c (taken ++ rest) hpiece with
        hsame | ⟨hcomment, hskipped, hlonger⟩
      · rw [hread, List.append_assoc] at hsame
        rw [List.cons_append, List.append_assoc]
        rcases ih fun s hs => hsound s (List.mem_cons_of_mem _ hs) with
          hcut | ⟨init, last, rfl, hlast, hpiece, hcut⟩
        · have hoffset : offset + (c :: (taken ++ rest)).length =
              offset + 1 + taken.length + rest.length := by
            simp only [List.length_cons, List.length_append]
            omega
          have hposition : position.after (c :: (taken ++ rest)) =
              (position.after (c :: taken)).after rest :=
            Position.after_append position (c :: taken) rest
          rw [hoffset, hposition]
          exact .inl (.cons hsame hcut)
        · exact .inr ⟨_ :: init, last, rfl, hlast, hpiece, .cons hsame hcut⟩
      · rw [hread] at hskipped
        obtain ⟨rfl, hlength⟩ := Prod.mk.inj hskipped
        obtain rfl : rest = [] := by
          rw [List.length_append] at hlength
          exact List.length_eq_zero_iff.mp (by omega)
        cases hrest
        rw [List.append_nil] at hcomment hlonger ⊢
        have hread' : Piece.read c ((taken ++ [';']) ++ []) = (.skipped, (taken ++ [';']).length) := by
          rw [List.append_nil, hlonger, List.length_append, List.length_singleton]
        have hcut := @Cut.cons offset position _ _ _ _ _ hread' .nil
        rw [List.append_nil] at hcut
        exact .inr ⟨[], _, rfl, hcomment, rfl, hcut⟩

/-- A line feed is a segment of its own, which yields nothing. -/
theorem Cut.line_feed
    {offset : Nat}
    {position : Position}
    {text : List Char}
    {segments : List Segment}
    (h : Cut (offset + 1) (position.after ['\n']) text segments) :
    Cut offset position ('\n' :: text) (⟨offset, position, ['\n'], .skipped⟩ :: segments) := by
  have hread : Piece.read '\n' ([] ++ text) = (.skipped, ([] : List Char).length) := rfl
  exact .cons hread h

end Joining

end Lox
