import Lox.Proofs.Parse.Statement
import Lox.Proofs.Token.Events

/-!
# Accepted programs are well placed

The scanner never takes a reserved word for an identifier, so what the readers say of code without
errors holds of every text that is accepted as a program.
-/

namespace Lox

section Words

theorem wordKind_of_isReserved {word : String} (h : IsReserved word) :
    wordKind word ≠ .identifier := by
  rcases h with rfl | rfl <;> decide

namespace Piece

theorem readStringBody_ne_identifier (quote : Char) (literal : Option Literal) :
    ∀ (text decoded : List Char) (taken : Nat),
      (readStringBody quote text decoded taken).1 ≠ .token .identifier literal
  | [], _, _ => by simp [readStringBody]
  | [c], decoded, taken => by
      unfold readStringBody
      split <;> simp
  | c :: d :: rest, decoded, taken => by
      unfold readStringBody
      split
      · simp
      · split
        · exact readStringBody_ne_identifier quote literal rest _ _
        · exact readStringBody_ne_identifier quote literal (d :: rest) _ _

theorem oneOrTwo_ne_identifier
    {second : Char} {two one : Piece} {literal : Option Literal}
    (htwo : two ≠ .token .identifier literal)
    (hone : one ≠ .token .identifier literal)
    (rest : List Char) :
    (oneOrTwo second two one rest).1 ≠ .token .identifier literal := by
  unfold oneOrTwo
  split
  · split
    · exact htwo
    · exact hone
  · exact hone

theorem readSlash_ne_identifier (literal : Option Literal) (rest : List Char) :
    (readSlash rest).1 ≠ .token .identifier literal := by
  unfold readSlash
  split
  · simp
  · split <;> simp
  · simp [plain]

theorem readEquals_ne_identifier (literal : Option Literal) (rest : List Char) :
    (readEquals rest).1 ≠ .token .identifier literal := by
  unfold readEquals
  split <;> simp [plain]

theorem single?_ne_identifier {c : Char} {kind : TokenKind} (h : single? c = some kind) :
    kind ≠ .identifier := by
  unfold single? at h
  split at h <;> cases h <;> simp

/-- If it is an identifier, the segment was read as a name. -/
def IsNameOrOther (c : Char) (rest : List Char) (r : Piece × Nat) : Prop :=
  (∃ literal, r.1 = .token .identifier literal) → r = readName c rest

theorem isNameOrOther_of_ne
    {c : Char} {rest : List Char} {r : Piece × Nat}
    (h : ∀ literal, r.1 ≠ .token .identifier literal) :
    IsNameOrOther c rest r :=
  fun ⟨literal, hr⟩ => absurd hr (h literal)

theorem isNameOrOther_ite
    {c : Char} {rest : List Char} {p : Prop} [Decidable p] {r r' : Piece × Nat}
    (h : IsNameOrOther c rest r)
    (h' : IsNameOrOther c rest r') :
    IsNameOrOther c rest (if p then r else r') := by
  split <;> assumption

theorem isNameOrOther_oneOrTwo
    {c : Char} {rest : List Char} {second : Char} {two one : Piece}
    (htwo : ∀ literal, two ≠ .token .identifier literal)
    (hone : ∀ literal, one ≠ .token .identifier literal) :
    IsNameOrOther c rest (oneOrTwo second two one rest) :=
  isNameOrOther_of_ne fun literal => oneOrTwo_ne_identifier (htwo literal) (hone literal) rest

theorem isNameOrOther_read (c : Char) (rest : List Char) :
    IsNameOrOther c rest (read c rest) := by
  unfold read
  split
  · next kind hkind =>
      refine isNameOrOther_of_ne fun literal h => ?_
      cases h
      exact single?_ne_identifier hkind rfl
  · refine isNameOrOther_ite (isNameOrOther_oneOrTwo nofun nofun) ?_
    refine isNameOrOther_ite (isNameOrOther_of_ne fun l => readSlash_ne_identifier l rest) ?_
    refine isNameOrOther_ite (isNameOrOther_of_ne fun l => readEquals_ne_identifier l rest) ?_
    refine isNameOrOther_ite (isNameOrOther_oneOrTwo nofun nofun) ?_
    refine isNameOrOther_ite (isNameOrOther_oneOrTwo nofun nofun) ?_
    refine isNameOrOther_ite (isNameOrOther_oneOrTwo nofun nofun) ?_
    refine isNameOrOther_ite (isNameOrOther_oneOrTwo nofun nofun) ?_
    refine isNameOrOther_ite (isNameOrOther_oneOrTwo nofun nofun) ?_
    refine isNameOrOther_ite (isNameOrOther_of_ne nofun) ?_
    refine isNameOrOther_ite
      (isNameOrOther_of_ne fun l => readStringBody_ne_identifier c l rest [] 0) ?_
    refine isNameOrOther_ite (isNameOrOther_of_ne nofun) ?_
    exact isNameOrOther_ite (fun _ => rfl) (isNameOrOther_of_ne nofun)

/-- The characters of a segment that is an identifier are no reserved word. -/
theorem not_isReserved_of_read
    {c : Char} {rest : List Char} {literal : Option Literal}
    (h : (read c rest).1 = .token .identifier literal) :
    ¬IsReserved (String.ofList (c :: rest.take (read c rest).2)) := by
  have hread : read c rest = readName c rest := isNameOrOther_read c rest ⟨literal, h⟩
  rw [hread] at h ⊢
  simp only [readName, token.injEq] at h ⊢
  have htake : rest.take (rest.takeWhile continuesName).length = rest.takeWhile continuesName := by
    rw [← List.prefix_iff_eq_take.mp (List.takeWhile_prefix _)]
  rw [htake]
  exact fun hreserved => wordKind_of_isReserved hreserved h.1

end Piece

/-- Every segment is what is read at some place of the text. -/
theorem mem_cutSegments
    {segment : Segment} {text : List Char} {pending offset : Nat} {position : Position}
    {done : List Segment}
    (h : segment ∈ cutSegments text pending offset position done) :
    segment ∈ done ∨ ∃ c rest, segment.piece = (Piece.read c rest).1 ∧
      segment.chars = c :: rest.take (Piece.read c rest).2 := by
  induction text generalizing pending offset position done with
  | nil => exact .inl (by simpa [cutSegments] using h)
  | cons c rest ih =>
      cases pending with
      | succ pending => exact ih (by simpa [cutSegments] using h)
      | zero =>
          rw [cutSegments] at h
          rcases ih h with h | h
          · rcases List.mem_cons.mp h with rfl | h
            · exact .inr ⟨c, rest, rfl, rfl⟩
            · exact .inl h
          · exact .inr h

theorem Token.unreserved_of_mem_scanEvents
    {file : Nat} {text : List Char} {token : Token}
    (h : .ok token ∈ scanEvents file text) :
    token.Unreserved := by
  intro hkind
  rcases List.mem_append.mp h with h | h
  · obtain ⟨segment, hsegment, hevent⟩ := List.mem_filterMap.mp h
    obtain ⟨c, rest, hpiece, hchars⟩ := (mem_cutSegments hsegment).resolve_left (by simp)
    unfold Segment.event? at hevent
    split at hevent
    · cases hevent
    · next kind literal hp =>
        cases hevent
        rw [hp] at hpiece
        simp only at hkind ⊢
        rw [hchars]
        have hread : (Piece.read c rest).1 = .token .identifier literal := by rw [← hpiece, hkind]
        exact Piece.not_isReserved_of_read hread
    · cases hevent
  · cases List.mem_singleton.mp h
    cases hkind

/-- The scanner takes no reserved word for an identifier. -/
theorem Scan.unreserved_of_tokenize
    {file : Nat} {text : List Char} {collectAll : Bool} {tokens : List Token}
    (h : Scan.tokenize file text collectAll = .ok tokens) :
    ∀ token ∈ tokens, token.Unreserved := by
  intro token htoken
  simp only [Scan.tokenize] at h
  split at h
  · cases h
    exact Token.unreserved_of_mem_scanEvents (Scan.mem_tokens_ofText htoken)
  · cases h

end Words

section Programs

theorem Program.placed_of_ofTokens
    {tokens : List Token} {collectAll : Bool} {program : Program}
    (htokens : ∀ token ∈ tokens, token.Unreserved)
    (h : Program.ofTokens tokens collectAll = .ok program) :
    ∀ s ∈ program.statements, s.Placed .outermost := by
  unfold Program.ofTokens at h
  cases hlast : tokens.getLast? with
  | none =>
      simp only [hlast] at h
      cases h
      simp
  | some final =>
      simp only [hlast] at h
      have hstart : Parse.Cursor.Unreserved ⟨tokens.headD final, tokens.dropLast, final, []⟩ :=
        ⟨fun token ht => htokens token (List.dropLast_subset _ ht),
          htokens final (List.mem_of_getLast? hlast)⟩
      have hread := Parse.Reads.program .outermost (Parse.Context.outermost collectAll) _ rfl hstart
      split at h
      · next statements s hparsed =>
          rw [hparsed] at hread
          split at h
          · next herrors =>
              cases h
              exact (hread.2 (by simpa using herrors)).2
          · cases h
      · cases h
      · cases h

/-- **Accepted programs are well placed.** -/
theorem Program.placed_of_ofText
    {file : Nat} {text : List Char} {collectAll : Bool} {program : Program}
    (h : Program.ofText file text collectAll = .ok program) :
    ∀ s ∈ program.statements, s.Placed .outermost := by
  unfold Program.ofText at h
  split at h
  · cases h
  · next tokens htokens =>
      split at h
      · cases h
      · next hprogram =>
          cases h
          exact Program.placed_of_ofTokens (Scan.unreserved_of_tokenize htokens) hprogram

end Programs

theorem Program.exists_of_isOk
    {file : Nat} {text : List Char} {collectAll : Bool}
    (h : (Program.ofText file text collectAll).isOk = true) :
    ∃ program, Program.ofText file text collectAll = .ok program := by
  cases hresult : Program.ofText file text collectAll with
  | ok program => exact ⟨program, rfl⟩
  | error errors =>
      rw [hresult] at h
      cases h

end Lox
