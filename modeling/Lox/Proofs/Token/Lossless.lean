import Lox.Proofs.Token.Events
import Mathlib.Data.List.TakeWhile

/-!
# Scanning loses nothing

A text is the concatenation of its segments, and every segment is accounted for
(`scan_lossless`): it yields one token, which is the segment with its offsets, or one fault, or
nothing, and it yields nothing only as white space or as a comment (`Skippable`). The end token
stands at the end and nowhere else.
-/

namespace Lox

section Skipping

/-- The end of a block comment stands behind the body, and nowhere before. -/
def EndsFirst (body : List Char) : Prop :=
  ∀ early, early ++ ['*', '/'] <+: body ++ ['*', '/'] → early = body

/-- White space or a comment, in front of the characters `after`: a single blank, tab, carriage
return or line feed; two slashes and the rest of the line; a block comment, which ends where it can
end first. -/
inductive Skippable : List Char → List Char → Prop
  | space
      {c : Char}
      {after : List Char}
      (hspace : c = ' ' ∨ c = '\t' ∨ c = '\r' ∨ c = '\n') :
      Skippable [c] after
  | line
      {body after : List Char}
      (hbody : '\n' ∉ body)
      (hafter : after = [] ∨ ∃ later, after = '\n' :: later) :
      Skippable ('/' :: '/' :: body) after
  | block
      {body after : List Char}
      (hfirst : EndsFirst body) :
      Skippable ('/' :: '*' :: (body ++ ['*', '/'])) after

theorem dropWhile_ne (d : Char) (rest : List Char) :
    rest.dropWhile (· != d) = [] ∨ ∃ later, rest.dropWhile (· != d) = d :: later := by
  induction rest with
  | nil => exact .inl rfl
  | cons c rest ih =>
      by_cases h : c = d
      · subst h
        exact .inr ⟨rest, List.dropWhile_cons_of_neg (by simp)⟩
      · rw [List.dropWhile_cons_of_pos (by simpa using h)]
        exact ih

theorem endsFirst_nil : EndsFirst [] := by
  intro early hearly
  have hlength := hearly.length_le
  simp only [List.length_append, List.length_nil] at hlength
  exact List.eq_nil_of_length_eq_zero (by omega)

/-- A character that does not end the comment may stand before the body. -/
theorem EndsFirst.cons
    {c : Char}
    {body : List Char}
    (h : EndsFirst body)
    (hne : ∀ later, c = '*' → body ++ ['*', '/'] ≠ '/' :: later) :
    EndsFirst (c :: body) := by
  intro early hearly
  cases early with
  | nil =>
      obtain ⟨rfl, later, hlater⟩ := List.cons_prefix_cons.mp hearly
      exact absurd hlater.symm (hne later rfl)
  | cons d early =>
      obtain ⟨rfl, hprefix⟩ := List.cons_prefix_cons.mp hearly
      rw [h early hprefix]

/-- The length that is found reaches to the first end. -/
theorem Piece.blockCommentLength?_eq
    {rest : List Char}
    {taken length : Nat}
    (h : blockCommentLength? rest taken = some length) :
    ∃ body after, rest = body ++ ['*', '/'] ++ after ∧ length = taken + body.length + 2 ∧
      EndsFirst body := by
  fun_induction blockCommentLength? rest taken with
  | case1 after taken =>
      obtain rfl := Option.some.inj h
      exact ⟨[], after, rfl, rfl, endsFirst_nil⟩
  | case2 c rest taken hne ih =>
      obtain ⟨body, after, rfl, rfl, hfirst⟩ := ih h
      refine ⟨c :: body, after, rfl, ?_, hfirst.cons fun later hstar hslash => ?_⟩
      · simp only [List.length_cons]
        omega
      · exact hne (later ++ after) hstar (by rw [hslash]; rfl)
  | case3 => cases h

end Skipping

namespace Piece

/-- What is read behind `c` is accounted for: nothing comes of white space and comments only, and
no token is the end token. -/
def Accounts (c : Char) (rest : List Char) : Piece × Nat → Prop
  | (.skipped, length) => Skippable (c :: rest.take length) (rest.drop length)
  | (.token kind _, _) => kind ≠ .endOfInput
  | (.fault _, _) => True

section Readers

variable {c : Char}

theorem accounts_oneOrTwo
    {second : Char}
    {two one : Piece}
    (rest : List Char)
    (htwo : ∀ length, Accounts c rest (two, length))
    (hone : ∀ length, Accounts c rest (one, length)) :
    Accounts c rest (oneOrTwo second two one rest) := by
  unfold oneOrTwo
  split
  · split
    · exact htwo 1
    · exact hone 0
  · exact hone 0

theorem accounts_readEquals (rest : List Char) : Accounts c rest (readEquals rest) := by
  unfold readEquals
  split <;> exact nofun

theorem accounts_readSlash (rest : List Char) : Accounts '/' rest (readSlash rest) := by
  unfold readSlash
  split
  · next rest =>
      have hbody : '\n' ∉ rest.takeWhile (· != '\n') := fun hmem => by
        simpa using List.mem_takeWhile_imp hmem
      have hafter := dropWhile_ne '\n' rest
      have hsplit := rest.takeWhile_append_dropWhile (p := (· != '\n'))
      generalize rest.takeWhile (· != '\n') = body at hbody hsplit ⊢
      generalize rest.dropWhile (· != '\n') = after at hafter hsplit
      subst hsplit
      rw [Nat.add_comm]
      simpa [Accounts] using Skippable.line hbody hafter
  · next rest =>
      split
      · next length h =>
          obtain ⟨body, after, rfl, rfl, hfirst⟩ := blockCommentLength?_eq h
          have hlength : 1 + (0 + body.length + 2) = (body ++ ['*', '/']).length + 1 := by
            simp only [List.length_append, List.length_cons, List.length_nil]
            omega
          rw [hlength]
          simp only [Accounts, List.take_succ_cons, List.drop_succ_cons, List.take_left,
            List.drop_left]
          exact .block hfirst
      · trivial
  · exact nofun

theorem accounts_readStringBody
    (quote : Char)
    (all rest decoded : List Char)
    (taken : Nat) :
    Accounts c all (readStringBody quote rest decoded taken) := by
  fun_induction readStringBody quote rest decoded taken with
  | case1 => trivial
  | case2 => simp [Accounts]
  | case3 => trivial
  | case4 => simp [Accounts]
  | case5 _ _ _ _ _ ih => exact ih
  | case6 _ _ _ _ _ _ _ ih => exact ih

theorem wordKind_ne_endOfInput (word : String) : wordKind word ≠ .endOfInput := by
  have hkeywords : ∀ p ∈ keywords, p.2 ≠ .endOfInput := by decide
  unfold wordKind
  cases hlookup : keywords.lookup word with
  | none => exact nofun
  | some kind =>
      obtain ⟨before, after, heq, -⟩ := List.lookup_eq_some_iff.mp hlookup
      exact hkeywords (word, kind) (by simp [heq])

theorem single?_ne_endOfInput {kind : TokenKind} (h : single? c = some kind) :
    kind ≠ .endOfInput := by
  unfold single? at h
  split at h <;> cases h <;> exact nofun

theorem accounts_space
    (rest : List Char)
    (h : isSpace c = true) :
    Accounts c rest (.skipped, 0) := by
  refine .space ?_
  simp only [isSpace, Bool.or_eq_true, beq_iff_eq] at h
  rcases h with ((h | h) | h) | h
  · exact .inl h
  · exact .inr (.inr (.inl h))
  · exact .inr (.inl h)
  · exact .inr (.inr (.inr h))

/-- Whatever is read is accounted for. -/
theorem accounts_read (c : Char) (rest : List Char) : Accounts c rest (read c rest) := by
  unfold read
  split
  · next kind hkind => exact single?_ne_endOfInput hkind
  · refine iteInduction (fun _ => accounts_oneOrTwo rest nofun nofun) fun _ => ?_
    refine iteInduction (fun hc => hc ▸ accounts_readSlash rest) fun _ => ?_
    refine iteInduction (fun _ => accounts_readEquals rest) fun _ => ?_
    refine iteInduction (fun _ => accounts_oneOrTwo rest nofun nofun) fun _ => ?_
    refine iteInduction (fun _ => accounts_oneOrTwo rest nofun nofun) fun _ => ?_
    refine iteInduction (fun _ => accounts_oneOrTwo rest nofun nofun) fun _ => ?_
    refine iteInduction (fun _ => accounts_oneOrTwo rest nofun fun _ => trivial) fun _ => ?_
    refine iteInduction (fun _ => accounts_oneOrTwo rest nofun fun _ => trivial) fun _ => ?_
    refine iteInduction (accounts_space rest) fun _ => ?_
    refine iteInduction (fun _ => accounts_readStringBody c rest rest [] 0) fun _ => ?_
    refine iteInduction (fun _ => nofun) fun _ => ?_
    exact iteInduction (fun _ => wordKind_ne_endOfInput _) fun _ => trivial

end Readers

end Piece

section Accounting

/-- The token that a segment yields, if it yields one. -/
def Segment.token? (segment : Segment) (file : Nat) : Option Token :=
  (segment.event? file).bind Except.toOption

/-- The fault that a segment yields, if it yields one. -/
def Segment.error? (segment : Segment) (file : Nat) : Option LexError :=
  (segment.event? file).bind fun
    | .error e => some e
    | .ok _ => none

/-- What a segment may yield in front of the characters `after`: one token, which is the segment,
or one fault, or nothing. -/
inductive Segment.Yields (file : Nat) (segment : Segment) (after : List Char) :
    Option Token → Option LexError → Prop
  | token
      {token : Token}
      (hkind : token.kind ≠ .endOfInput)
      (hlexeme : token.lexeme = String.ofList segment.chars)
      (hspan : token.span = .ofLength file segment.offset segment.chars.length) :
      Yields file segment after (some token) none
  | fault
      {e : LexError}
      (hstart : e.span.start = segment.offset) :
      Yields file segment after none (some e)
  | nothing
      (hskippable : Skippable segment.chars after) :
      Yields file segment after none none

/-- A segment begins where the text before it ends, and what it yields is accounted for. -/
structure Segment.Accounted
    (file : Nat)
    (before : List Char)
    (segment : Segment)
    (after : List Char) : Prop where
  nonempty : segment.chars ≠ []
  offset_eq : segment.offset = before.length
  yields : segment.Yields file after (segment.token? file) (segment.error? file)

theorem Segment.yields_of_accounts
    {file offset : Nat}
    {position : Position}
    {c : Char}
    {taken after : List Char}
    {piece : Piece}
    (h : Piece.Accounts c (taken ++ after) (piece, taken.length)) :
    (⟨offset, position, c :: taken, piece⟩ : Segment).Yields file after
      (Segment.token? ⟨offset, position, c :: taken, piece⟩ file)
      (Segment.error? ⟨offset, position, c :: taken, piece⟩ file) := by
  cases piece with
  | skipped =>
      refine .nothing ?_
      simpa [Piece.Accounts] using h
  | token kind literal => exact .token h rfl rfl
  | fault cause => exact .fault (by cases cause <;> rfl)

/-- The segments of a text, one after the other, are the text. -/
theorem Cut.flatMap_chars
    {offset : Nat}
    {position : Position}
    {text : List Char}
    {segments : List Segment}
    (h : Cut offset position text segments) :
    segments.flatMap (·.chars) = text := by
  induction h with
  | nil => rfl
  | cons hread hrest ih => rw [List.flatMap_cons, ih]; rfl

/-- Every segment is accounted for. The text that is cut begins behind `done`. -/
theorem Cut.accounted
    {offset : Nat}
    {position : Position}
    {text : List Char}
    {segments : List Segment}
    (h : Cut offset position text segments)
    (done : List Char)
    (hdone : offset = done.length)
    (file : Nat)
    {before after : List Segment}
    {segment : Segment}
    (hsplit : segments = before ++ segment :: after) :
    segment.Accounted file (done ++ before.flatMap (·.chars)) (after.flatMap (·.chars)) := by
  induction h generalizing done before with
  | nil => simp at hsplit
  | @cons offset position c taken rest piece segments hread hrest ih =>
      cases before with
      | nil =>
          obtain ⟨rfl, rfl⟩ := List.cons.inj hsplit
          have haccounts := hread ▸ Piece.accounts_read c (taken ++ rest)
          rw [hrest.flatMap_chars]
          exact ⟨nofun, by simpa using hdone, Segment.yields_of_accounts haccounts⟩
      | cons first before =>
          obtain ⟨rfl, hlater⟩ := List.cons.inj hsplit
          have hlength : offset + 1 + taken.length = (done ++ c :: taken).length := by
            simp only [List.length_append, List.length_cons]
            omega
          simpa using ih _ hlength hlater

theorem Scan.collect_append (events later : List (Except LexError Token)) :
    Scan.collect (events ++ later) =
      ⟨(Scan.collect events).tokens ++ (Scan.collect later).tokens,
        (Scan.collect events).errors ++ (Scan.collect later).errors, none⟩ := by
  simp [Scan.collect]

/-- The scan that passes over faults, segment by segment. -/
theorem Scan.ofText_collect (file : Nat) (text : List Char) :
    Scan.ofText file text true =
      ⟨(segments text).filterMap (·.token? file) ++ [endToken file text],
        (segments text).filterMap (·.error? file), none⟩ := by
  have htokens : (Scan.collect ((segments text).filterMap (·.event? file))).tokens =
      (segments text).filterMap (·.token? file) :=
    List.filterMap_filterMap
  have herrors : (Scan.collect ((segments text).filterMap (·.event? file))).errors =
      (segments text).filterMap (·.error? file) :=
    List.filterMap_filterMap
  have hscan : Scan.ofText file text true = Scan.collect (scanEvents file text) := rfl
  rw [hscan, scanEvents, Scan.collect_append, htokens, herrors]
  simp [Scan.collect, Except.toOption]

/-- Scanning to the end loses nothing. The segments of a text make up the text and are not empty;
each yields one token with its characters and offsets, or one fault, or nothing, and nothing only if
it is white space or a comment. The scan gives out the tokens and the faults in order, and at the
end, and only there, the end token. -/
theorem scan_lossless (file : Nat) (text : List Char) :
    (segments text).flatMap (·.chars) = text ∧
      (∀ before segment after, segments text = before ++ segment :: after →
        segment.Accounted file (before.flatMap (·.chars)) (after.flatMap (·.chars))) ∧
      ∃ final : Token,
        Scan.ofText file text true =
          ⟨(segments text).filterMap (·.token? file) ++ [final],
            (segments text).filterMap (·.error? file), none⟩ ∧
        (final.kind = .endOfInput ∧ final.lexeme = "" ∧
          final.span = .ofLength file text.length 0) ∧
        ∀ token ∈ (segments text).filterMap (·.token? file), token.kind ≠ .endOfInput := by
  have hcut : Cut 0 Position.first text (segments text) := Cut.of_text text 0 Position.first
  have haccounted : ∀ before segment after, segments text = before ++ segment :: after →
      segment.Accounted file (before.flatMap (·.chars)) (after.flatMap (·.chars)) :=
    fun before segment after hsplit => hcut.accounted [] rfl file hsplit
  refine ⟨hcut.flatMap_chars, haccounted, endToken file text, Scan.ofText_collect file text,
    ⟨rfl, rfl, rfl⟩, fun token htoken => ?_⟩
  obtain ⟨segment, hsegment, hyields⟩ := List.mem_filterMap.mp htoken
  obtain ⟨before, after, hsplit⟩ := List.append_of_mem hsegment
  have h := (haccounted before segment after hsplit).yields
  rw [hyields] at h
  generalize segment.error? file = e at h
  cases h with
  | token hkind => exact hkind

end Accounting

end Lox
