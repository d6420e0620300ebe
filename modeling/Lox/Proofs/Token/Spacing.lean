import Lox.Proofs.Token.Joining
import Lox.Proofs.Token.Lossless
import Lox.Proofs.Token.Quotation
import Lox.Proofs.Token.Spelling

/-!
# Spacing tokens differently

A token that was read somewhere is read again wherever its characters stand in front of white space or
at the end of a text (`Piece.read_steady`): no token goes on with white space, and how far a token
reaches does not depend on what stands behind it otherwise. So the tokens of a text can be written
down with any white space between them; scanning finds the same tokens again (`respacing`).
-/

namespace Lox

namespace Piece

/-- The text does not begin with a character that a token of more than one character goes on with. -/
def Ends (later : List Char) : Prop :=
  ∀ stop ∈ later.head?, Separates stop

theorem ends_nil : Ends [] :=
  nofun

theorem separates_space {c : Char} (h : isSpace c) : Separates c := by
  simp only [isSpace, Bool.or_eq_true, beq_iff_eq] at h
  rcases h with ((rfl | rfl) | rfl) | rfl
  all_goals exact ⟨by decide, by decide, by decide⟩

theorem ends_space {c : Char} (h : isSpace c) (more : List Char) : Ends (c :: more) := by
  intro stop hstop
  obtain rfl := Option.some.inj hstop
  exact separates_space h

/-- A token that was found is found again if `later` follows it. -/
def Steady (later : List Char) (read : List Char → Piece × Nat) : Prop :=
  ∀ taken rest kind literal, read (taken ++ rest) = (.token kind literal, taken.length) →
    read (taken ++ later) = (.token kind literal, taken.length)

namespace Steady

variable {later : List Char}

theorem const (piece : Piece) : Steady later fun _ => (piece, 0) := by
  intro taken rest kind literal h
  exact h

theorem ite
    {p : Prop}
    [Decidable p]
    {read other : List Char → Piece × Nat}
    (hread : p → Steady later read)
    (hother : ¬p → Steady later other) :
    Steady later fun rest => if p then read rest else other rest := by
  split
  · next h => exact hread h
  · next h => exact hother h

end Steady

section Readers

variable {later : List Char}

theorem oneOrTwo_steady
    {second : Char}
    (two one : Piece)
    (hsecond : ∀ stop, Separates stop → stop ≠ second)
    (hlater : Ends later) :
    Steady later (oneOrTwo second two one) := by
  intro taken rest kind literal h
  cases taken with
  | cons c taken => exact h
  | nil =>
      have hone : one = .token kind literal := by
        rw [List.nil_append] at h
        unfold oneOrTwo at h
        split at h
        · split at h <;> cases h
          rfl
        · cases h
          rfl
      cases later with
      | nil => simp [oneOrTwo, hone]
      | cons stop more => simp [oneOrTwo, hone, hsecond stop (hlater stop rfl)]

theorem readEquals_steady (hlater : Ends later) : Steady later readEquals := by
  intro taken rest kind literal h
  cases taken with
  | cons c taken =>
      rw [List.cons_append] at h ⊢
      unfold readEquals at h ⊢
      split at h <;> simp_all
  | nil =>
      have hplain : plain .assign = .token kind literal := by
        rw [List.nil_append] at h
        unfold readEquals at h
        split at h <;> cases h
        rfl
      rw [List.nil_append, List.length_nil, ← hplain]
      cases later with
      | nil => rfl
      | cons stop more =>
          have hoperator := (hlater stop rfl).operator
          unfold readEquals
          split <;> simp_all

theorem readSlash_steady (hlater : Ends later) : Steady later readSlash := by
  intro taken rest kind literal h
  unfold readSlash at h
  split at h
  · cases h
  · split at h <;> cases h
  · obtain ⟨hplain, hlength⟩ := Prod.mk.inj h
    obtain rfl := List.eq_nil_of_length_eq_zero hlength.symm
    rw [List.nil_append, List.length_nil, ← hplain]
    cases later with
    | nil => rfl
    | cons stop more =>
        have hoperator := (hlater stop rfl).operator
        have hslash : stop ≠ '/' := by
          rintro rfl
          simp at hoperator
        have hstar : stop ≠ '*' := by
          rintro rfl
          simp at hoperator
        simp [readSlash, hslash, hstar]

theorem closes_append
    {quote : Char}
    {taken : List Char}
    {i : Nat}
    (hi : i < taken.length)
    (rest : List Char) :
    Closes quote (taken ++ rest) i ↔ Closes quote taken i := by
  unfold Closes
  rw [List.getElem?_append_left hi, List.take_append_of_le_length (Nat.le_of_lt hi)]

theorem closesFirst_append
    {quote : Char}
    {taken : List Char}
    {i : Nat}
    (hi : i < taken.length)
    (rest : List Char) :
    ClosesFirst quote (taken ++ rest) i ↔ ClosesFirst quote taken i := by
  refine and_congr (closes_append hi rest) (forall_congr' fun j => forall_congr' fun hj => ?_)
  rw [closes_append (Nat.lt_trans hj hi) rest]

/-- What stands behind the closing quote does not matter. -/
theorem readString_steady (quote : Char) : Steady later fun rest => readStringBody quote rest [] 0 := by
  intro taken rest kind literal h
  beta_reduce at h ⊢
  rcases readStringBody_cases (taken ++ rest) [] 0 with ⟨i, hfirst, hread⟩ | ⟨-, hread⟩
  · obtain ⟨hpiece, hlength⟩ := Prod.mk.inj (hread.symm.trans h)
    have hi : i < taken.length := by omega
    have hfirst' : ClosesFirst quote (taken ++ later) i :=
      (closesFirst_append hi later).mpr ((closesFirst_append hi rest).mp hfirst)
    rcases readStringBody_cases (taken ++ later) [] 0 with ⟨j, hfirst'', hread'⟩ | ⟨hnone, -⟩
    · obtain rfl := hfirst'.unique hfirst''
      rw [List.take_append_of_le_length (Nat.le_of_lt hi)] at hpiece hread'
      rw [hread', hpiece, hlength]
    · exact absurd hfirst'.1 (hnone i)
  · rw [hread] at h
    cases h

/-- Where a run of characters ends if something else follows it. -/
theorem takeWhile_of_ends
    (hlater : Ends later)
    {test : Char → Bool}
    (htest : ∀ stop, Separates stop → test stop = false)
    {run : List Char}
    (hrun : ∀ c ∈ run, test c) :
    (run ++ later).takeWhile test = run ∧ (run ++ later).dropWhile test = later := by
  rw [List.takeWhile_append_of_pos hrun, List.dropWhile_append_of_pos hrun]
  cases later with
  | nil => simp
  | cons stop more => simp [htest stop (hlater stop rfl)]

/-- A run of characters that are all that was taken. -/
theorem takeWhile_eq_taken
    {test : Char → Bool}
    {taken rest : List Char}
    (h : ((taken ++ rest).takeWhile test).length = taken.length) :
    (taken ++ rest).takeWhile test = taken ∧ ∀ c ∈ taken, test c := by
  have heq : (taken ++ rest).takeWhile test = taken :=
    (List.prefix_of_prefix_length_le (List.takeWhile_prefix test) (List.prefix_append taken rest)
      (Nat.le_of_eq h)).eq_of_length h
  refine ⟨heq, fun c hc => ?_⟩
  rw [← heq] at hc
  exact List.mem_takeWhile_imp hc

theorem readName_steady (hlater : Ends later) (c : Char) : Steady later (readName c) := by
  intro taken rest kind literal h
  obtain ⟨htaken, hrun⟩ := takeWhile_eq_taken (congrArg Prod.snd h)
  obtain ⟨hsame, -⟩ := takeWhile_of_ends hlater (fun stop hstop => hstop.name) hrun
  rw [readName, htaken] at h
  rw [readName, hsame]
  exact h

/-- A number with a fraction. -/
theorem readNumber_fraction
    (hlater : Ends later)
    (c : Char)
    {whole fraction : List Char}
    (hwhole : ∀ d ∈ whole, d.isDigit)
    (hfraction : ∀ d ∈ fraction, d.isDigit)
    (hne : fraction ≠ []) :
    readNumber c (whole ++ '.' :: (fraction ++ later)) =
      (.token .number (some (.number (Decimal.ofDigits (c :: whole) fraction))),
        whole.length + 1 + fraction.length) := by
  have hpoint : ('.' :: (fraction ++ later)).takeWhile Char.isDigit = [] := rfl
  have hpoint' : ('.' :: (fraction ++ later)).dropWhile Char.isDigit = '.' :: (fraction ++ later) :=
    rfl
  obtain ⟨hdigits, -⟩ := takeWhile_of_ends hlater (fun stop hstop => hstop.digit) hfraction
  rw [readNumber, List.takeWhile_append_of_pos hwhole, List.dropWhile_append_of_pos hwhole, hpoint,
    hpoint', List.append_nil, fractionDigits, hdigits]
  simp [hne]

theorem fractionDigits_of_ends (hlater : Ends later) : fractionDigits later = [] := by
  cases later with
  | nil => rfl
  | cons stop more =>
      have hoperator := (hlater stop rfl).operator
      have hpoint : stop ≠ '.' := by
        rintro rfl
        simp at hoperator
      simp [fractionDigits, hpoint]

/-- A fraction begins with a point. -/
theorem eq_of_fractionDigits
    {after : List Char}
    (h : fractionDigits after ≠ []) :
    ∃ tail, after = '.' :: (fractionDigits after ++ tail) ∧
      ∀ d ∈ fractionDigits after, d.isDigit := by
  unfold fractionDigits at h ⊢
  split at h
  · next rest =>
      refine ⟨rest.dropWhile Char.isDigit, ?_, fun d hd => List.mem_takeWhile_imp hd⟩
      rw [List.takeWhile_append_dropWhile]
  · exact absurd rfl h

theorem readNumber_steady (hlater : Ends later) (c : Char) : Steady later (readNumber c) := by
  intro taken rest kind literal h
  have hwhole : ∀ d ∈ (taken ++ rest).takeWhile Char.isDigit, d.isDigit :=
    fun d hd => List.mem_takeWhile_imp hd
  by_cases hnone : fractionDigits ((taken ++ rest).dropWhile Char.isDigit) = []
  · rw [readNumber, hnone] at h
    obtain ⟨htaken, hrun⟩ := takeWhile_eq_taken (congrArg Prod.snd h)
    obtain ⟨hsame, hafter⟩ := takeWhile_of_ends hlater (fun stop hstop => hstop.digit) hrun
    rw [htaken] at h
    rw [readNumber, hsame, hafter, fractionDigits_of_ends hlater]
    exact h
  · obtain ⟨tail, hafter, hfraction⟩ := eq_of_fractionDigits hnone
    have hsplit := (taken ++ rest).takeWhile_append_dropWhile (p := Char.isDigit)
    rw [readNumber] at h
    generalize (taken ++ rest).takeWhile Char.isDigit = whole at h hwhole hsplit
    generalize (taken ++ rest).dropWhile Char.isDigit = after at h hnone hafter hfraction hsplit
    generalize fractionDigits after = fraction at h hnone hafter hfraction
    subst hafter
    rw [List.isEmpty_eq_false_iff.mpr hnone] at h
    have hlength : taken.length = (whole ++ '.' :: fraction).length := by
      have hcount : whole.length + 1 + fraction.length = taken.length := congrArg Prod.snd h
      simp only [List.length_append, List.length_cons]
      omega
    obtain ⟨rfl, -⟩ : taken = whole ++ '.' :: fraction ∧ rest = tail :=
      List.append_inj (by simpa using hsplit.symm) hlength
    rw [List.append_assoc, List.cons_append, readNumber_fraction hlater c hwhole hfraction hnone]
    exact h

/-- A token is found again wherever nothing follows it that it would go on with. -/
theorem read_steady (hlater : Ends later) (c : Char) : Steady later (read c) := by
  have hne {second : Char} (hsecond : second ∈ ['*', '/', '=', '>', '&', '|', '.']) :
      ∀ stop, Separates stop → stop ≠ second := by
    rintro stop hstop rfl
    exact hstop.operator hsecond
  have h : Steady later fun rest => read c rest := by
    unfold read
    split
    · exact .const _
    · refine .ite (fun _ => oneOrTwo_steady _ _ (hne (by simp)) hlater) fun _ => ?_
      refine .ite (fun _ => readSlash_steady hlater) fun _ => ?_
      refine .ite (fun _ => readEquals_steady hlater) fun _ => ?_
      refine .ite (fun _ => oneOrTwo_steady _ _ (hne (by simp)) hlater) fun _ => ?_
      refine .ite (fun _ => oneOrTwo_steady _ _ (hne (by simp)) hlater) fun _ => ?_
      refine .ite (fun _ => oneOrTwo_steady _ _ (hne (by simp)) hlater) fun _ => ?_
      refine .ite (fun _ => oneOrTwo_steady _ _ (hne (by simp)) hlater) fun _ => ?_
      refine .ite (fun _ => oneOrTwo_steady _ _ (hne (by simp)) hlater) fun _ => ?_
      refine .ite (fun _ => .const _) fun _ => ?_
      refine .ite (fun _ => readString_steady c) fun _ => ?_
      refine .ite (fun _ => readNumber_steady hlater c) fun _ => ?_
      exact .ite (fun _ => readName_steady hlater c) fun _ => .const _
  exact h

end Readers

end Piece

section Texts

/-- What a token is, apart from where it stands. -/
def Token.content (token : Token) : TokenKind × String × Option Literal :=
  (token.kind, token.lexeme, token.literal)

/-- The texts of the tokens but for the one that ends the source. -/
def lexemes (tokens : List Token) : List (List Char) :=
  (tokens.filter (·.kind ≠ .endOfInput)).map (·.lexeme.toList)

/-- The words one after the other, with white space between any two neighbours. -/
inductive Spaced : List (List Char) → List Char → Prop
  | nil : Spaced [] []
  | single
      (word : List Char) :
      Spaced [word] word
  | cons
      {word gap next : List Char}
      {words : List (List Char)}
      {text : List Char}
      (hgap : gap ≠ [])
      (hspace : ∀ c ∈ gap, Piece.isSpace c)
      (hnext : Spaced (next :: words) text) :
      Spaced (word :: next :: words) (word ++ (gap ++ text))

/-- Words with the same white space between any two neighbours. -/
theorem spaced_intercalate
    {gap : List Char}
    (hgap : gap ≠ [])
    (hspace : ∀ c ∈ gap, Piece.isSpace c)
    (words : List (List Char)) :
    Spaced words (gap.intercalate words) := by
  match words with
  | [] => exact .nil
  | [word] => simpa using Spaced.single word
  | word :: next :: words =>
      rw [List.intercalate_cons_cons, List.append_assoc]
      exact .cons hgap hspace (spaced_intercalate hgap hspace (next :: words))

/-- The token was read somewhere. -/
def Token.IsRead (token : Token) : Prop :=
  ∃ c taken rest, token.lexeme = String.ofList (c :: taken) ∧
    Piece.read c (taken ++ rest) = (.token token.kind token.literal, taken.length)

theorem Piece.read_space {c : Char} (h : isSpace c) (rest : List Char) :
    read c rest = (.skipped, 0) := by
  simp only [isSpace, Bool.or_eq_true, beq_iff_eq] at h
  rcases h with ((rfl | rfl) | rfl) | rfl <;> rfl

variable {file offset : Nat} {position : Position} {text : List Char}

/-- The tokens of a text were read there, and none of them is the one that ends the text. -/
theorem isRead_of_mem
    {tokens : List Token}
    (h : (segments text).filterMap (·.event? file) = tokens.map .ok) :
    ∀ token ∈ tokens, token.IsRead ∧ token.kind ≠ .endOfInput := by
  intro token htoken
  have hevent : .ok token ∈ (segments text).filterMap (·.event? file) :=
    h ▸ List.mem_map_of_mem htoken
  obtain ⟨segment, hsegment, hevent⟩ := List.mem_filterMap.mp hevent
  obtain ⟨c, taken, rest, hchars, hread⟩ :=
    (Cut.of_text text 0 Position.first).read segment hsegment
  unfold Segment.event? at hevent
  split at hevent
  · cases hevent
  · next kind literal hpiece =>
      cases hevent
      rw [hpiece] at hread
      have haccounts := Piece.accounts_read c (taken ++ rest)
      rw [hread] at haccounts
      exact ⟨⟨c, taken, rest, congrArg String.ofList hchars, hread⟩, haccounts⟩
  · cases hevent

/-- Wherever the text stands, it is cut into segments whose tokens have these contents. -/
def ScansTo (text : List Char) (contents : List (TokenKind × String × Option Literal)) : Prop :=
  ∀ file offset position, ∃ (segments : List Segment) (found : List Token),
    Cut offset position text segments ∧ segments.filterMap (·.event? file) = found.map .ok ∧
      found.map Token.content = contents

namespace ScansTo

variable {contents : List (TokenKind × String × Option Literal)}

theorem nil : ScansTo [] [] := by
  intro file offset position
  exact ⟨[], [], .nil, rfl, rfl⟩

/-- White space in front of a text is of no consequence. -/
theorem blank
    {gap : List Char}
    (hspace : ∀ c ∈ gap, Piece.isSpace c)
    (h : ScansTo text contents) :
    ScansTo (gap ++ text) contents := by
  induction gap with
  | nil => exact h
  | cons c gap ih =>
      intro file offset position
      obtain ⟨segments, found, hcut, hevents, hcontents⟩ :=
        ih (fun d hd => hspace d (List.mem_cons_of_mem _ hd)) file (offset + 1) (position.next c)
      have hread : Piece.read c ([] ++ (gap ++ text)) = (.skipped, ([] : List Char).length) :=
        Piece.read_space (hspace c List.mem_cons_self) _
      exact ⟨⟨offset, position, [c], .skipped⟩ :: segments, found, .cons hread hcut, hevents,
        hcontents⟩

/-- A token that was read somewhere is read in front of what it does not go on with. -/
theorem token
    {token : Token}
    (htoken : token.IsRead)
    (hends : Piece.Ends text)
    (h : ScansTo text contents) :
    ScansTo (token.lexeme.toList ++ text) (token.content :: contents) := by
  intro file offset position
  obtain ⟨c, taken, rest, hlexeme, hread⟩ := htoken
  obtain ⟨segments, found, hcut, hevents, hcontents⟩ :=
    h file (offset + 1 + taken.length) (position.after (c :: taken))
  have hsame := Piece.read_steady hends c taken rest token.kind token.literal hread
  have hchars : token.lexeme.toList = c :: taken := by
    rw [hlexeme, String.toList_ofList]
  rw [hchars]
  let moved : Token :=
    { token with position := position, span := .ofLength file offset (c :: taken).length }
  refine ⟨_, moved :: found, .cons hsame hcut, ?_, ?_⟩
  · rw [List.filterMap_cons, hevents, Segment.event?, ← hlexeme]
    rfl
  · rw [List.map_cons, hcontents]
    rfl

/-- Tokens that were read somewhere are read again with white space between them. -/
theorem spaced
    {tokens : List Token}
    (hread : ∀ token ∈ tokens, token.IsRead)
    (h : Spaced (tokens.map (·.lexeme.toList)) text) :
    ScansTo text (tokens.map Token.content) := by
  generalize hwords : tokens.map (·.lexeme.toList) = words at h
  induction h generalizing tokens with
  | nil =>
      obtain rfl := List.map_eq_nil_iff.mp hwords
      exact .nil
  | single word =>
      obtain ⟨token, rfl, rfl⟩ := List.map_eq_singleton_iff.mp hwords
      simpa using ScansTo.token (hread token List.mem_cons_self) Piece.ends_nil .nil
  | @cons word gap next words text hgap hspace hnext ih =>
      obtain ⟨token, others, rfl, rfl, hothers⟩ := List.map_eq_cons_iff.mp hwords
      have hrest := ih (fun t ht => hread t (List.mem_cons_of_mem _ ht)) hothers
      have hends : Piece.Ends (gap ++ text) := by
        obtain ⟨c, more, rfl⟩ := List.exists_cons_of_ne_nil hgap
        exact Piece.ends_space (hspace c List.mem_cons_self) _
      exact .token (hread token List.mem_cons_self) hends (hrest.blank hspace)

end ScansTo

/-- The tokens of a text survive if they are spaced differently. If a text has tokens only, then any
text that consists of their characters, the end token apart, with white space between any two
neighbours has tokens only, and these have the same kinds, characters and values in the same order. -/
theorem respacing
    {file : Nat}
    {text : List Char}
    {collectAll : Bool}
    {tokens : List Token}
    (h : Scan.tokenize file text collectAll = .ok tokens)
    {respaced : List Char}
    (hrespaced : Spaced (lexemes tokens) respaced)
    (file' : Nat)
    (collectAll' : Bool) :
    ∃ found, Scan.tokenize file' respaced collectAll' = .ok found ∧
      found.map Token.content = tokens.map Token.content := by
  rw [Scan.tokenize_eq_ok] at h
  have hmem := isRead_of_mem (events_eq_dropLast h)
  have hlexemes : lexemes tokens = tokens.dropLast.map (·.lexeme.toList) := by
    rw [lexemes, tokens_eq_concat h, List.filter_append, List.dropLast_concat,
      List.filter_eq_self.mpr fun t ht => by simpa using (hmem t ht).2]
    simp [endToken]
  rw [hlexemes] at hrespaced
  obtain ⟨segments', found, hcut, hevents, hcontents⟩ :=
    ScansTo.spaced (fun t ht => (hmem t ht).1) hrespaced file' 0 Position.first
  have hsegments : segments respaced = segments' := (Cut.of_text _ 0 Position.first).unique hcut
  refine ⟨found ++ [endToken file' respaced], ?_, ?_⟩
  · rw [Scan.tokenize_eq_ok, scanEvents, hsegments, hevents, List.map_append]
    rfl
  · rw [tokens_eq_concat h, List.map_append, List.map_append, hcontents]
    rfl

/-- Operators, a string that holds a quote and a comment, a comment, a number and a point. -/
theorem respacing_operators :
    let text := "x**2==\"// \\\" 'b'\"/*c*/=>1.5.k"
    let gap := [' ', '\n', '\t']
    ∃ tokens found : List Token,
      Scan.tokenize 0 text.toList true = .ok tokens ∧
      Spaced (lexemes tokens) (gap.intercalate (lexemes tokens)) ∧
      Scan.tokenize 1 (gap.intercalate (lexemes tokens)) false = .ok found ∧
      found.map Token.content = tokens.map Token.content := by
  intro text gap
  have hok : (Scan.tokenize 0 text.toList true).isOk = true := by decide +kernel
  cases htokens : Scan.tokenize 0 text.toList true with
  | error errors =>
      rw [htokens] at hok
      cases hok
  | ok tokens =>
      have hspaced : Spaced (lexemes tokens) (gap.intercalate (lexemes tokens)) :=
        spaced_intercalate (by decide) (by simp [gap, Piece.isSpace]) _
      obtain ⟨found, hfound, hcontents⟩ := respacing htokens hspaced 1 false
      exact ⟨tokens, found, rfl, hspaced, hfound, hcontents⟩

end Texts

end Lox
