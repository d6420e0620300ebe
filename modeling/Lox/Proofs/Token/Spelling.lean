import Lox.Parse.Expression
import Lox.Proofs.Token.Events

/-!
# How operators are spelled

A token whose kind is an operator consists of the characters of that operator. So an operator can be
known by the text of its token as well as by the kind, and the evaluation of an operator that is
known by its text never comes across a text that it does not know.
-/

namespace Lox

/-- The text of an operator between or before operands. -/
def TokenKind.operatorText? : TokenKind → Option String
  | plus => some "+"
  | minus => some "-"
  | star => some "*"
  | slash => some "/"
  | power => some "**"
  | percent => some "%"
  | bang => some "!"
  | equal => some "=="
  | notEqual => some "!="
  | less => some "<"
  | lessEqual => some "<="
  | greater => some ">"
  | greaterEqual => some ">="
  | _ => none

section Reading

namespace Piece

/-- What was read in the segment that begins with `c` before `rest`: an operator has its text, and a
comment that is not ended has at least its first two characters. -/
structure Spelled (c : Char) (rest : List Char) (r : Piece × Nat) : Prop where
  operator : ∀ kind literal, r.1 = .token kind literal →
    ∀ text ∈ kind.operatorText?, c :: rest.take r.2 = text.toList
  comment : r.1 = .fault .unterminatedComment → 0 < r.2

variable {c : Char} {rest : List Char}

theorem Spelled.skipped (taken : Nat) : Spelled c rest (.skipped, taken) where
  operator := nofun
  comment := nofun

/-- A fault that is no comment without an end. -/
theorem Spelled.fault
    {cause : LexFault}
    (h : cause ≠ .unterminatedComment)
    (taken : Nat) :
    Spelled c rest (.fault cause, taken) where
  operator := nofun
  comment hcause := absurd (Piece.fault.inj hcause) h

/-- A token that is no operator. -/
theorem Spelled.token
    {kind : TokenKind}
    (h : kind.operatorText? = none)
    (literal : Option Literal)
    (taken : Nat) :
    Spelled c rest (.token kind literal, taken) where
  operator kind' literal' hkind text htext := by
    cases hkind
    rw [h] at htext
    cases htext
  comment := nofun

theorem Spelled.ite
    {p : Prop} [Decidable p] {r r' : Piece × Nat}
    (h : p → Spelled c rest r)
    (h' : ¬p → Spelled c rest r') :
    Spelled c rest (if p then r else r') := by
  split
  · next hp => exact h hp
  · next hp => exact h' hp

/-- A token that has one character. -/
theorem Spelled.one
    {kind : TokenKind}
    (h : ∀ text ∈ kind.operatorText?, [c] = text.toList) :
    Spelled c rest (plain kind, 0) where
  operator kind' literal hkind text htext := by
    cases hkind
    exact h text htext
  comment := nofun

theorem Spelled.oneOrTwo
    {second : Char} {two one : Piece}
    (htwo : ∀ more, Spelled c (second :: more) (two, 1))
    (hone : Spelled c rest (one, 0)) :
    Spelled c rest (oneOrTwo second two one rest) := by
  cases rest with
  | nil => exact hone
  | cons d more =>
      simp only [Piece.oneOrTwo]
      split
      · next heq => exact heq ▸ htwo more
      · exact hone

/-- A token that has two characters. -/
theorem Spelled.two
    {kind : TokenKind} {second : Char} {more : List Char}
    (h : ∀ text ∈ kind.operatorText?, [c, second] = text.toList) :
    Spelled c (second :: more) (plain kind, 1) where
  operator kind' literal hkind text htext := by
    cases hkind
    exact h text htext
  comment := nofun

theorem operatorText?_of_single?
    {kind : TokenKind}
    (h : single? c = some kind) :
    ∀ text ∈ kind.operatorText?, [c] = text.toList := by
  unfold single? at h
  split at h <;> cases h <;> simp [TokenKind.operatorText?]

theorem operatorText?_wordKind (word : String) : (wordKind word).operatorText? = none := by
  unfold wordKind
  cases hlookup : keywords.lookup word with
  | none => rfl
  | some kind =>
      obtain ⟨before, after, hsplit, -⟩ := List.lookup_eq_some_iff.mp hlookup
      have hmem : (word, kind) ∈ keywords := by simp [hsplit]
      have hall : ∀ entry ∈ keywords, entry.2.operatorText? = none := by decide
      exact hall _ hmem

theorem spelled_readSlash : Spelled '/' rest (readSlash rest) := by
  fun_cases readSlash rest
  · exact .skipped _
  · exact .skipped _
  · exact ⟨nofun, fun _ => by omega⟩
  · exact .one (by simp [TokenKind.operatorText?])

theorem spelled_readEquals : Spelled '=' rest (readEquals rest) := by
  fun_cases readEquals rest
  · exact .two (by simp [TokenKind.operatorText?])
  · exact .two (by simp [TokenKind.operatorText?])
  · exact .one (by simp [TokenKind.operatorText?])

theorem spelled_readStringBody (quote : Char) (decoded : List Char) (taken : Nat) (body : List Char) :
    Spelled c rest (readStringBody quote body decoded taken) := by
  fun_induction readStringBody quote body decoded taken with
  | case1 | case3 => exact .fault (by decide) _
  | case2 | case4 => exact .token rfl _ _
  | case5 _ _ _ _ _ ih => exact ih
  | case6 _ _ _ _ _ _ _ ih => exact ih

/-- Every segment is spelled as what it is. -/
theorem spelled_read (c : Char) (rest : List Char) : Spelled c rest (read c rest) := by
  unfold read
  split
  · next kind hkind => exact .one (operatorText?_of_single? hkind)
  · refine .ite (fun h => ?_) fun _ => .ite (fun h => ?_) fun _ => .ite (fun h => ?_) fun _ =>
      .ite (fun h => ?_) fun _ => .ite (fun h => ?_) fun _ => .ite (fun h => ?_) fun _ =>
      .ite (fun h => ?_) fun _ => .ite (fun h => ?_) fun _ => .ite (fun _ => ?_) fun _ =>
      .ite (fun _ => ?_) fun _ => .ite (fun _ => ?_) fun _ => .ite (fun _ => ?_) fun _ => ?_
    · subst h
      exact .oneOrTwo (fun _ => .two (by decide)) (.one (by decide))
    · subst h
      exact spelled_readSlash
    · subst h
      exact spelled_readEquals
    · subst h
      exact .oneOrTwo (fun _ => .two (by decide)) (.one (by decide))
    · subst h
      exact .oneOrTwo (fun _ => .two (by decide)) (.one (by decide))
    · subst h
      exact .oneOrTwo (fun _ => .two (by decide)) (.one (by decide))
    · subst h
      exact .oneOrTwo (fun _ => .two (by decide)) (.fault (by decide) 0)
    · subst h
      exact .oneOrTwo (fun _ => .two (by decide)) (.fault (by decide) 0)
    · exact .skipped 0
    · exact spelled_readStringBody c [] 0 rest
    · exact .token rfl _ _
    · exact .token (operatorText?_wordKind _) _ _
    · have hcause : LexFault.unexpectedCharacter c ≠ .unterminatedComment := by simp
      exact .fault hcause 0

end Piece

end Reading

section Tokens

variable {file : Nat} {text : List Char}

/-- Every segment begins at a character of the text and was read there. -/
theorem Cut.read
    {offset : Nat} {position : Position} {segments : List Segment}
    (h : Cut offset position text segments) :
    ∀ s ∈ segments, ∃ c taken rest, s.chars = c :: taken ∧
      Piece.read c (taken ++ rest) = (s.piece, taken.length) := by
  induction h with
  | nil => nofun
  | @cons offset position c taken rest piece segments hread hrest ih =>
      intro s hs
      rcases List.mem_cons.mp hs with rfl | hs
      · exact ⟨c, taken, rest, rfl, hread⟩
      · exact ih s hs

/-- A token whose kind is an operator has the text of the operator. -/
theorem Token.lexeme_of_operatorText?
    {token : Token} {operator : String}
    (h : .ok token ∈ scanEvents file text)
    (hkind : token.kind.operatorText? = some operator) :
    token.lexeme = operator := by
  rcases List.mem_append.mp h with h | h
  · obtain ⟨segment, hsegment, hevent⟩ := List.mem_filterMap.mp h
    obtain ⟨c, taken, rest, hchars, hread⟩ :=
      (Cut.of_text text 0 Position.first).read segment hsegment
    unfold Segment.event? at hevent
    split at hevent
    · cases hevent
    · next kind literal hpiece =>
        cases hevent
        have hspelled := (Piece.spelled_read c (taken ++ rest)).operator kind literal
          (by rw [hread, hpiece]) operator hkind
        simp only [hread, List.take_left] at hspelled
        simp only [hchars, hspelled, String.ofList_toList]
    · cases hevent
  · cases List.mem_singleton.mp h
    cases hkind

/-- The binary operator that a text stands for; the operators are tried one after another. -/
def BinaryOp.ofText? (text : String) : Option BinaryOp :=
  [equal, notEqual, add, subtract, multiply, divide, remainder, power, greater, greaterEqual, less,
    lessEqual].find? (·.text == text)

/-- The unary operator that a text stands for. -/
def UnaryOp.ofText? (text : String) : Option UnaryOp :=
  [negate, not].find? (·.text == text)

/-- Whatever operator a reader makes of the token, the text of the token stands for it. -/
structure Token.SpellsOperators (token : Token) : Prop where
  binary : ∀ table ∈ [Parse.factorOp?, Parse.termOp?, Parse.comparisonOp?, Parse.equalityOp?],
    ∀ join ∈ table token.kind,
      ∃ op, join = Parse.joinBinary op ∧ BinaryOp.ofText? token.lexeme = some op
  power : token.kind = .power → BinaryOp.ofText? token.lexeme = some .power
  unary : ∀ op ∈ Parse.unaryOp? token.kind, UnaryOp.ofText? token.lexeme = some op

/-- Whatever operator is made of a token, its text is that of the token. -/
theorem Token.spellsOperators
    {token : Token}
    (h : .ok token ∈ scanEvents file text) :
    token.SpellsOperators := by
  have hlexeme (operator : String) (hkind : token.kind.operatorText? = some operator) :
      token.lexeme = operator :=
    Token.lexeme_of_operatorText? h hkind
  refine ⟨fun table htable join hjoin => ?_, fun hkind => ?_, fun op hop => ?_⟩
  · -- one token after another that one of the tables knows
    have hmade : ∃ op, join = Parse.joinBinary op ∧ token.kind.operatorText? = some op.text := by
      simp only [List.mem_cons, List.not_mem_nil, or_false] at htable
      rcases htable with rfl | rfl | rfl | rfl
      · unfold Parse.factorOp? at hjoin
        split at hjoin <;> cases hjoin <;> exact ⟨_, rfl, by rw [‹token.kind = _›]; rfl⟩
      · unfold Parse.termOp? at hjoin
        split at hjoin <;> cases hjoin <;> exact ⟨_, rfl, by rw [‹token.kind = _›]; rfl⟩
      · unfold Parse.comparisonOp? at hjoin
        split at hjoin <;> cases hjoin <;> exact ⟨_, rfl, by rw [‹token.kind = _›]; rfl⟩
      · unfold Parse.equalityOp? at hjoin
        split at hjoin <;> cases hjoin <;> exact ⟨_, rfl, by rw [‹token.kind = _›]; rfl⟩
    obtain ⟨op, rfl, hop⟩ := hmade
    exact ⟨op, rfl, by rw [hlexeme _ hop]; cases op <;> decide⟩
  · rw [hlexeme "**" (by rw [hkind]; rfl)]
    decide
  · have hmade : token.kind.operatorText? = some op.text := by
      unfold Parse.unaryOp? at hop
      split at hop <;> cases hop <;> (rw [‹token.kind = _›]; rfl)
    rw [hlexeme _ hmade]
    cases op <;> decide

/-- Every token and every fault lies in the text that was scanned. -/
theorem within_of_scanEvents
    {event : Except LexError Token}
    (h : event ∈ scanEvents file text) :
    (eventSpan event).file = file ∧ 0 ≤ (eventSpan event).start ∧
      (eventSpan event).stop ≤ text.length := by
  have hcut : Cut 0 Position.first text (segments text) := Cut.of_text text 0 Position.first
  rcases List.mem_append.mp h with h | h
  · obtain ⟨segment, hsegment, hevent⟩ := List.mem_filterMap.mp h
    obtain ⟨-, -, hle⟩ := hcut.within segment hsegment
    unfold Segment.event? at hevent
    split at hevent
    · cases hevent
    · cases hevent
      refine ⟨rfl, Int.natCast_nonneg _, ?_⟩
      simp only [eventSpan, Span.ofLength]
      omega
    · next cause hpiece =>
        cases hevent
        cases cause with
        | unterminatedComment =>
            -- the segment has at least the two characters of the span
            obtain ⟨c, taken, rest, hchars, hread⟩ := hcut.read segment hsegment
            have hcomment := (Piece.spelled_read c (taken ++ rest)).comment (by rw [hread, hpiece])
            rw [hread] at hcomment
            refine ⟨rfl, Int.natCast_nonneg _, ?_⟩
            simp only [eventSpan, Segment.faultSpan, Span.ofLength, hchars, List.length_cons] at hle ⊢
            omega
        | unexpectedCharacter | unterminatedString =>
            refine ⟨rfl, Int.natCast_nonneg _, ?_⟩
            simp only [eventSpan, Segment.faultSpan, Span.ofLength]
            omega
  · cases List.mem_singleton.mp h
    refine ⟨rfl, Int.natCast_nonneg _, ?_⟩
    simp [eventSpan, Span.ofLength, endToken]

end Tokens

end Lox
