import Lox.Proofs.Parse.Joining
import Lox.Proofs.Parse.Modes
import Lox.Proofs.Parse.Program
import Lox.Proofs.Surface.Statement

/-!
# Programs and targets of the surface grammar

The scanner gives every number and every string its value and marks the end of the input, so the
readers, which take what the grammar derives, take all of a program. It does not matter whether they
go on behind an error: where there is a program, there is no error.

Whether a value can be assigned to what stands before an equals sign is decided after the fact, by
the tree that was read there. The reference allows a name, a property of a call and an element of a
call. Parentheses leave nothing in the tree, so these are allowed in any number of parentheses, and
every other left side is reported where it stands.
-/

namespace Lox

section Values

namespace Piece

/-- A number or a string is read with its value. -/
def Valued : Piece → Prop
  | token kind literal => kind = .number ∨ kind = .string → literal.isSome = true
  | _ => True

theorem valued_plain {kind : TokenKind} (h : kind ≠ .number ∧ kind ≠ .string) :
    (plain kind).Valued :=
  fun hkind => absurd hkind (not_or.mpr h)

theorem valued_fault (cause : LexFault) : (fault cause).Valued :=
  trivial

theorem single?_valued {c : Char} {kind : TokenKind} (h : single? c = some kind) :
    (plain kind).Valued := by
  unfold single? at h
  split at h <;> cases h <;> exact valued_plain (by decide)

theorem oneOrTwo_valued {two one : Piece} (htwo : two.Valued) (hone : one.Valued) (second : Char)
    (rest : List Char) :
    (oneOrTwo second two one rest).1.Valued := by
  unfold oneOrTwo
  split
  · split
    · exact htwo
    · exact hone
  · exact hone

theorem readSlash_valued (rest : List Char) : (readSlash rest).1.Valued := by
  unfold readSlash
  split
  · trivial
  · split <;> trivial
  · exact valued_plain (by decide)

theorem readEquals_valued (rest : List Char) : (readEquals rest).1.Valued := by
  unfold readEquals
  split <;> exact valued_plain (by decide)

theorem readStringBody_valued (quote : Char) (rest decoded : List Char) (taken : Nat) :
    (readStringBody quote rest decoded taken).1.Valued := by
  fun_induction readStringBody quote rest decoded taken with
  | case1 => trivial
  | case2 => exact fun _ => rfl
  | case3 => trivial
  | case4 => exact fun _ => rfl
  | case5 _ _ _ _ _ ih => exact ih
  | case6 _ _ _ _ _ _ _ ih => exact ih

theorem wordKind_valued (word : String) : wordKind word ≠ .number ∧ wordKind word ≠ .string := by
  have hkeywords : ∀ p ∈ keywords, p.2 ≠ .number ∧ p.2 ≠ .string := by decide
  unfold wordKind
  cases hlookup : keywords.lookup word with
  | none => exact ⟨nofun, nofun⟩
  | some kind =>
      obtain ⟨before, after, heq, -⟩ := List.lookup_eq_some_iff.mp hlookup
      exact hkeywords (word, kind) (by simp [heq])

theorem ite_valued {p : Prop} [Decidable p] {r r' : Piece × Nat} (h : r.1.Valued)
    (h' : r'.1.Valued) :
    (if p then r else r').1.Valued := by
  split <;> assumption

theorem read_valued (c : Char) (rest : List Char) : (read c rest).1.Valued := by
  have hplain {kind : TokenKind} (h : kind ≠ .number ∧ kind ≠ .string) := valued_plain h
  unfold read
  split
  · next kind hkind => exact single?_valued hkind
  · refine ite_valued (oneOrTwo_valued (hplain (by decide)) (hplain (by decide)) _ _) ?_
    refine ite_valued (readSlash_valued rest) ?_
    refine ite_valued (readEquals_valued rest) ?_
    refine ite_valued (oneOrTwo_valued (hplain (by decide)) (hplain (by decide)) _ _) ?_
    refine ite_valued (oneOrTwo_valued (hplain (by decide)) (hplain (by decide)) _ _) ?_
    refine ite_valued (oneOrTwo_valued (hplain (by decide)) (hplain (by decide)) _ _) ?_
    refine ite_valued (oneOrTwo_valued (hplain (by decide)) (valued_fault _) _ _) ?_
    refine ite_valued (oneOrTwo_valued (hplain (by decide)) (valued_fault _) _ _) ?_
    refine ite_valued trivial ?_
    refine ite_valued (readStringBody_valued c rest [] 0) ?_
    refine ite_valued (fun _ => rfl) ?_
    exact ite_valued (fun hkind => absurd hkind (not_or.mpr (wordKind_valued _))) trivial

end Piece

theorem Token.valued_of_mem_scanEvents
    {file : Nat}
    {text : List Char}
    {token : Token}
    (h : .ok token ∈ scanEvents file text) :
    token.Valued := by
  rcases List.mem_append.mp h with h | h
  · obtain ⟨segment, hsegment, hevent⟩ := List.mem_filterMap.mp h
    obtain ⟨c, rest, hpiece, -⟩ := (mem_cutSegments hsegment).resolve_left (by simp)
    have hvalued : segment.piece.Valued := hpiece ▸ Piece.read_valued c rest
    unfold Segment.event? at hevent
    split at hevent
    · cases hevent
    · next kind literal hp =>
        cases hevent
        rw [hp] at hvalued
        exact hvalued
    · cases hevent
  · cases List.mem_singleton.mp h
    exact nofun

end Values

/-- What is read without an error is a sequence of declarations, up to the end of the input. -/
theorem Program.declarations_of_ofTokens
    {file : Nat}
    {text : List Char}
    {collectAll : Bool}
    {tokens : List Token}
    {program : Program}
    (hevents : scanEvents file text = tokens.map .ok)
    (hprogram : Program.ofTokens tokens collectAll = .ok program) :
    Surface.Many Surface.Declaration tokens.dropLast program.statements := by
  have hfirst : Program.ofTokens tokens false = .ok program := by
    obtain ⟨other, hfalse, htrue⟩ | ⟨e, later, hfalse, htrue⟩ := Program.ofTokens_cases tokens
    · cases collectAll with
      | false => exact hprogram
      | true => rw [hfalse, ← htrue, hprogram]
    · cases collectAll with
      | false => exact hprogram
      | true => rw [htrue] at hprogram; cases hprogram
  have hsplit := tokens_eq_concat hevents
  have hvalued : ∀ token ∈ tokens.dropLast, token.Valued := fun token htoken =>
    Token.valued_of_mem_scanEvents <| hevents ▸
      List.mem_map_of_mem (List.dropLast_subset _ htoken)
  rw [hsplit] at hfirst
  generalize tokens.dropLast = body at hfirst hvalued ⊢
  obtain ⟨read, t, hread, ht, rfl⟩ := Program.ofTokens_eq_ok.mp hfirst
  obtain ⟨hend, -⟩ :=
    Parse.declarations_beside Relocation.identity_merges ht _ hread (Nat.lt_succ_self _)
  have hgrammar : Parse.grammar.Conforms := Parse.Grammar.conforms_ofDepth _
  obtain ⟨w, hpass, _, rfl, hmany⟩ :=
    (Parse.takes_manyUntil (fun _ => .atEnd) hgrammar.declaration _ []).ends rfl ⟨rfl, hvalued⟩
      hread
  have hbody : body = w := by simpa [hend] using hpass.rest
  exact hbody ▸ Parse.Grammar.Conforms.many_of_options hmany

/-- The parser is sound for the grammar. If the tokens of a text are read as a program, the grammar
derives all of them, up to the end of the input, and the program is the tree that belongs to the
derivation, spans included. -/
theorem program_derives
    {file : Nat}
    {text : List Char}
    (scanAll collectAll : Bool)
    {tokens : List Token}
    {program : Program}
    (htokens : Scan.tokenize file text scanAll = .ok tokens)
    (hprogram : Program.ofTokens tokens collectAll = .ok program) :
    Surface.Derives tokens program := by
  have hevents := Scan.tokenize_eq_ok.mp htokens
  rw [tokens_eq_concat hevents]
  exact .mk ⟨endToken file text, rfl⟩ (Program.declarations_of_ofTokens hevents hprogram)

theorem program_derives_else :
    ∃ tokens program,
      Scan.tokenize 0 "if (a) if (b) (c) = -x ** 2; else print \x7bk: (v) => [v,]\x7d;".toList
          false = .ok tokens ∧
        Program.ofTokens tokens true = .ok program ∧ Surface.Derives tokens program := by
  obtain ⟨program, hprogram⟩ : ∃ program, Program.ofText 0
      "if (a) if (b) (c) = -x ** 2; else print \x7bk: (v) => [v,]\x7d;".toList true = .ok program :=
    Program.exists_of_isOk (by decide +kernel)
  obtain ⟨tokens, hevents, htokens⟩ := Program.ofText_eq_ok.mp hprogram
  refine ⟨tokens, program, Scan.tokenize_eq_ok.mpr hevents, htokens, ?_⟩
  exact program_derives false true (Scan.tokenize_eq_ok.mpr hevents) htokens

namespace Surface

/-- The left sides that the reference allows: a name, or a call with a property or an index. -/
inductive PlainTarget : List Token → Expr → Prop
  | name (name : Word .identifier) : PlainTarget [name.1] (.reference name.1.lexeme name.1.span)
  | property {w us object} (dot : Word .dot) (name : Word .identifier) :
      w = us ++ [dot.1, name.1] →
      Expression .call us object →
      PlainTarget w (.get object name.1.lexeme (object.span.merge name.1.span))
  | element {w us vs object index} (opening : Word .leftBracket) (closing : Word .rightBracket) :
      w = us ++ [opening.1] ++ vs ++ [closing.1] →
      Expression .call us object →
      Expression .assignment vs index →
      PlainTarget w (.index object index (object.span.merge closing.1.span))

/-- A phrase in so many pairs of parentheses. -/
inductive Parenthesised {α : Type} (Phrase : List Token → α → Prop) :
    Nat → List Token → α → Prop
  | bare {w a} : Phrase w a → Parenthesised Phrase 0 w a
  | group {pairs w us a} (opening : Word .leftParen) (closing : Word .rightParen) :
      w = [opening.1] ++ us ++ [closing.1] →
      Parenthesised Phrase pairs us a →
      Parenthesised Phrase (pairs + 1) w a

theorem Target.parenthesised {w : List Token} {e : Expr} (h : Target w e) :
    ∃ pairs, Parenthesised PlainTarget pairs w e :=
  match h with
  | .name word => ⟨0, .bare (.name word)⟩
  | .property dot word hw hobject => ⟨0, .bare (.property dot word hw hobject)⟩
  | .element opening closing hw hobject hindex =>
      ⟨0, .bare (.element opening closing hw hobject hindex)⟩
  | .group opening closing hw htarget =>
      let ⟨pairs, h⟩ := htarget.parenthesised
      ⟨pairs + 1, .group opening closing hw h⟩

/-- What is in parentheses is a target if a value can be assigned to it. -/
theorem Parenthesised.assignable
    {pairs : Nat}
    {w : List Token}
    {target : Expr}
    (h : Parenthesised PlainTarget pairs w target)
    (value : Expr)
    (span : Span) :
    ∃ e, Parse.assignmentTo? target value span = some e := by
  induction h with
  | bare h => cases h <;> exact ⟨_, rfl⟩
  | group _ _ _ _ ih => exact ih

namespace PlainTarget

/-- Without parentheses around it, a left side does not end with one. -/
theorem getLast?_ne
    {w : List Token}
    {e : Expr}
    (h : PlainTarget w e) :
    ∀ token ∈ w.getLast?, token.kind ≠ .rightParen := by
  cases h with
  | name name => simp [name.2]
  | property dot name hw => simp [hw, name.2]
  | element opening closing hw =>
      rw [hw, List.getLast?_concat]
      simp [closing.2]

end PlainTarget

end Surface

namespace Parse

open Surface

/-- What is read without an error is a phrase of the surface grammar, whether or not reading would
have gone on behind an error. -/
theorem ternary_reading
    (n : Nat)
    {c : Context}
    {s t : Cursor}
    {e : Expr}
    (hs : s.Scanned)
    (h : ternary (.ofDepth n) c s = .ok e t)
    (ht : t.errors = []) :
    ∃ w, Passes s w t ∧ Reading .ternary w e := by
  have hfirst : ternary (.ofDepth n) c.stopping s = .ok e t := by
    cases hmode : c.collectAll with
    | false =>
        have hc : c.stopping = c := by rw [Context.stopping, ← hmode]
        rwa [hc]
    | true =>
        have hc : c.collecting = c := by rw [Context.collecting, ← hmode]
        have hagrees := modes_lawful.ternary (modes_lawful.ofDepth n)
        have hnil : s.errors = [] := by
          have hextends := hagrees.extends_from c s
          rw [hc, h] at hextends
          exact List.prefix_nil.mp (ht ▸ hextends)
        rw [hagrees.agrees c s hnil, hc, h, Parsed.firstOnly, if_pos ht]
        exact congrArg (Parsed.ok · t) (Relocation.relocate_identity_all.1 e)
  exact (takes_ternary (Grammar.conforms_ofDepth n) s).ends rfl hs hfirst

/-- The left side of an assignment, read in any context at any depth of nesting, and the value
behind the equals sign. If a value can be assigned to the tree of the left side, the assignment is
read, and the tokens of the left side, unless there is an error in them, are one that the reference
allows in some number of parentheses. Otherwise they are not, and the left side is reported as an
invalid target. -/
theorem assignment_decides_target
    (n : Nat)
    {c : Context}
    {s t u : Cursor}
    {target value : Expr}
    (equals : Word .assign)
    (hs : s.Scanned)
    (htarget : ternary (.ofDepth n) c s = .ok target t)
    (hequals : t.rest.head? = some equals.1)
    (hvalue : nested (Grammar.ofDepth n).assignment c t.advance = .ok value u) :
    (∃ e, assignmentTo? target value (target.span.merge value.span) = some e ∧
      assignment (.ofDepth n) c s = .ok e u ∧
      (t.errors = [] → ∃ w pairs, Passes s w t ∧ Parenthesised PlainTarget pairs w target)) ∨
    (∃ error : ParseError, error.code = "LOX2003" ∧ error.span = target.span ∧
      assignment (.ofDepth n) c s =
        (if c.collectAll then .ok target (u.record error) else .abort (u.errors ++ [error])) ∧
      (t.errors = [] → ∃ w, Passes s w t ∧ Expression .ternary w target ∧
        ¬∃ pairs, Parenthesised PlainTarget pairs w target)) := by
  have hcheck : check .assign c t = .ok true t := by
    rw [check, hequals, Option.map_some, equals.2, beq_self_eq_true]
  have hadvance : advance c t = .ok equals.1 t.advance := by
    obtain ⟨rest, hrest⟩ := List.head?_eq_some_iff.mp hequals
    simp only [advance, Cursor.advance, hrest]
  cases hassigned : assignmentTo? target value (target.span.merge value.span) with
  | some e =>
      refine .inl ⟨e, rfl, ?_, fun ht => ?_⟩
      · simp only [assignment, bind_apply, htarget, hcheck, if_true, hadvance, hvalue, hassigned]
        rfl
      · obtain ⟨w, hpass, hreading⟩ := ternary_reading n hs htarget ht
        obtain ⟨pairs, h⟩ := (hreading.target hassigned).parenthesised
        exact ⟨w, pairs, hpass, h⟩
  | none =>
      refine .inr ⟨⟨.invalidTarget target.span, equals.1⟩, rfl, rfl, ?_, fun ht => ?_⟩
      · simp only [assignment, bind_apply, htarget, hcheck, if_true, hadvance, hvalue, hassigned,
          report]
        cases c.collectAll <;> rfl
      · obtain ⟨w, hpass, hreading⟩ := ternary_reading n hs htarget ht
        refine ⟨w, hpass, hreading.expression, fun hplain => ?_⟩
        obtain ⟨pairs, h⟩ := hplain
        obtain ⟨e, he⟩ := h.assignable value (target.span.merge value.span)
        rw [hassigned] at he
        cases he

theorem assignment_decides_parenthesised :
    ∃ (s t u : Cursor) (target value : Expr) (equals : Word .assign),
      s.Scanned ∧
      ternary (.ofDepth 1) (.outermost true) s = .ok target t ∧
      t.rest.head? = some equals.1 ∧
      nested (Grammar.ofDepth 1).assignment (.outermost true) t.advance = .ok value u ∧
      ∃ w pairs, Passes s w t ∧ Parenthesised PlainTarget pairs w target := by
  let word (kind : TokenKind) (lexeme : String) : Token :=
    ⟨kind, lexeme, none, .first, ⟨0, 0, 1, by decide⟩⟩
  let s : Cursor :=
    ⟨word .semicolon ";", [word .leftParen "(", word .identifier "a", word .rightParen ")",
      word .assign "=", word .identifier "b"], word .endOfInput "", []⟩
  have hs : s.Scanned := ⟨rfl, by simp [s, word, Token.Valued]⟩
  refine ⟨s, _, _, _, _, ⟨word .assign "=", rfl⟩, hs, rfl, rfl, rfl, ?_⟩
  obtain ⟨_, -, -, htarget⟩ | ⟨_, -, -, hread, -⟩ :=
    assignment_decides_target 1 (c := .outermost true) ⟨word .assign "=", rfl⟩ hs rfl rfl rfl
  · exact htarget rfl
  · cases hread

/-- The reference has no `(a)` on the left of an equals sign, yet there it is accepted. -/
theorem parenthesised_name_is_accepted :
    ∃ tokens program,
      Scan.tokenize 0 "var a; (a) = 1;".toList false = .ok tokens ∧
      ((tokens.drop 3).take 4).map (·.kind) = [.leftParen, .identifier, .rightParen, .assign] ∧
      Program.ofTokens tokens true = .ok program ∧
      ¬∃ e, PlainTarget ((tokens.drop 3).take 3) e := by
  obtain ⟨program, hprogram⟩ : ∃ program,
      Program.ofText 0 "var a; (a) = 1;".toList true = .ok program :=
    Program.exists_of_isOk (by decide +kernel)
  obtain ⟨tokens, hevents, htokens⟩ := Program.ofText_eq_ok.mp hprogram
  have hscan : Scan.tokenize 0 "var a; (a) = 1;".toList false = .ok tokens :=
    Scan.tokenize_eq_ok.mpr hevents
  have hkinds : (Scan.tokenize 0 "var a; (a) = 1;".toList false).toOption.map
      (fun tokens => ((tokens.drop 3).take 4).map (·.kind)) =
        some [.leftParen, .identifier, .rightParen, .assign] := by decide +kernel
  have hclosing : (Scan.tokenize 0 "var a; (a) = 1;".toList false).toOption.bind
      (fun tokens => ((tokens.drop 3).take 3).getLast?.map (·.kind)) = some .rightParen := by
    decide +kernel
  rw [hscan] at hkinds hclosing
  refine ⟨tokens, program, hscan, Option.some.inj hkinds, htokens, fun ⟨e, he⟩ => ?_⟩
  obtain ⟨token, htoken, hkind⟩ := Option.map_eq_some_iff.mp hclosing
  exact he.getLast?_ne token htoken hkind

end Parse

end Lox
