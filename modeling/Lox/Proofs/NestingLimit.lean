import Lox.Proofs.Parse.Joining
import Lox.Proofs.Parse.Limitless
import Lox.Proofs.Parse.Nesting
import Lox.Proofs.Printing.Levels
import Lox.Proofs.Printing.Statement

/-!
# The limit on nesting

A program that is accepted has no part inside more than `maxNesting` levels, and code that would be a
program without a limit is rejected for its nesting or for nothing: it is the same program, or its
only error is that it is nested too deeply. But the body of an arrow function that is an expression is
no level, so functions may be nested more deeply than the limit says.
-/

namespace Lox

namespace Parse

section Openers

/-- Does a token of this kind open a level where an operand is expected, if another such token follows?
-/
def opensLevel : TokenKind → Bool
  | .leftParen | .leftBracket | .bang | .minus => true
  | _ => false

variable {c : Context} {s : Cursor} {errors : List ParseError} {g : Grammar}

theorem bind_abort
    {α β : Type} {p : Parse α} {f : α → Parse β}
    (h : p c s = .abort errors) :
    (p >>= f) c s = .abort errors := by
  rw [bind_apply, h]

/-- Every expression begins with an operand. -/
theorem assignment_abort (h : unary g c s = .abort errors) : assignment g c s = .abort errors := by
  have hfactor : factor g c s = .abort errors := bind_abort h
  have hterm : term g c s = .abort errors := bind_abort hfactor
  have hcomparison : comparison g c s = .abort errors := bind_abort hterm
  have hequality : equality g c s = .abort errors := bind_abort hcomparison
  have hand : logicalAnd g c s = .abort errors := bind_abort hequality
  have hor : logicalOr g c s = .abort errors := bind_abort hand
  exact bind_abort (bind_abort hor)

/-- What is read behind an opening token is one level further in. -/
theorem unary_abort
    {first next : Token} {rest : List Token}
    (hs : s.rest = first :: next :: rest)
    (hfirst : opensLevel first.kind = true)
    (hnext : opensLevel next.kind = true)
    (hexpression : g.expression c s.advance = .abort errors)
    (hoperand : nested g.unary c s.advance = .abort errors) :
    unary g c s = .abort errors := by
  have hcurrent : s.current = first := by rw [Cursor.current, hs, List.headD_cons]
  have hcase : first.kind = .bang ∨ first.kind = .minus ∨ first.kind = .leftParen ∨
      first.kind = .leftBracket := by
    cases hkind : first.kind <;> simp_all [opensLevel]
  have hprimary (hsign : unaryOp? first.kind = none) (h : primary g c s = .abort errors) :
      unary g c s = .abort errors := by
    rw [unary, bind_apply, peek, hcurrent]
    simp only [hsign]
    exact bind_abort (bind_abort h)
  rcases hcase with hkind | hkind | hkind | hkind
  · rw [unary, bind_apply, peek, hcurrent]
    simp only [hkind, unaryOp?, bind_apply, advance]
    rw [hoperand]
  · rw [unary, bind_apply, peek, hcurrent]
    simp only [hkind, unaryOp?, bind_apply, advance]
    rw [hoperand]
  · refine hprimary (by rw [hkind]; rfl) ?_
    have harrow : startsArrow true (s.rest.drop 1) = false := by
      rw [hs, List.drop_one, List.tail_cons, startsArrow]
      cases hkind' : next.kind <;> simp_all [opensLevel]
    rw [primary, bind_apply, peek, hcurrent]
    simp only [hkind, bind_apply, remaining, harrow, Bool.false_eq_true, if_false]
    rw [grouping, bind_apply, advance]
    exact bind_abort hexpression
  · refine hprimary (by rw [hkind]; rfl) ?_
    have hrest : s.advance.rest = next :: rest := by rw [Cursor.advance, hs]
    have hclose : check .rightBracket c s.advance = .ok false s.advance := by
      rw [check, hrest]
      cases hkind' : next.kind <;> simp_all [opensLevel]
    have hlist : listLiteral g first c s.advance = .abort errors := by
      rw [listLiteral, bind_apply, budget]
      refine bind_abort ?_
      rw [listBefore, bind_apply, hclose]
      exact bind_abort hexpression
    rw [primary, bind_apply, peek, hcurrent]
    simp only [hkind, bind_apply, advance]
    exact hlist

/-- Openers are read one inside the other until the limit is reached. -/
theorem unary_dives
    {levels : Nat}
    {w rest : List Token}
    {token : Token}
    (hw : w.length = levels + 1)
    (hopeners : ∀ opener ∈ w ++ [token], opensLevel opener.kind = true)
    (depth : Nat)
    (hdepth : levels < depth)
    (hc : c.depth + levels = maxNesting)
    (hs : s.rest = w ++ token :: rest) :
    unary (.ofDepth depth) c s = .abort (s.errors ++ [⟨.nestedTooDeeply, token⟩]) := by
  induction levels generalizing w depth c s with
  | zero =>
      obtain ⟨first, rfl⟩ := List.length_eq_one_iff.mp hw
      have hcurrent : s.advance.current = token := by
        rw [Cursor.advance, hs]
        rfl
      have hdeep {α : Type} (p : Parse α) :
          nested p c s.advance = .abort (s.errors ++ [⟨.nestedTooDeeply, token⟩]) := by
        rw [nested, if_pos (by omega), tooDeep, hcurrent, Cursor.errors_advance]
      exact unary_abort hs (hopeners _ List.mem_cons_self) (hopeners _ (by simp)) (hdeep _) (hdeep _)
  | succ levels ih =>
      obtain ⟨first, w, rfl⟩ := List.exists_cons_of_length_eq_add_one hw
      obtain ⟨next, w', rfl⟩ := List.exists_cons_of_length_eq_add_one (Nat.succ.inj hw)
      obtain ⟨depth, rfl⟩ := Nat.exists_eq_succ_of_ne_zero (Nat.ne_of_gt (Nat.zero_lt_of_lt hdepth))
      have hinside : unary (.ofDepth depth) { c with depth := c.depth + 1 } s.advance =
          .abort (s.errors ++ [⟨.nestedTooDeeply, token⟩]) := by
        have h := @ih { c with depth := c.depth + 1 } s.advance (next :: w') (Nat.succ.inj hw)
          (fun opener hopener => hopeners opener (List.mem_cons_of_mem _ hopener)) depth (by omega)
          (by simp only; omega) (by rw [Cursor.advance, hs]; rfl)
        rwa [Cursor.errors_advance] at h
      refine unary_abort hs (hopeners _ List.mem_cons_self) (hopeners _ (by simp)) ?_ ?_
      · rw [Grammar.expression, nested, if_neg (by omega)]
        exact assignment_abort hinside
      · rw [nested, if_neg (by omega)]
        exact hinside

/-- A statement that begins with too many openers is nested too deeply. -/
theorem declaration_dives
    {w rest : List Token}
    {token : Token}
    (hw : w.length + 1 = maxNesting)
    (hopeners : ∀ opener ∈ w ++ [token], opensLevel opener.kind = true)
    (hc : c.depth = 0)
    (hs : s.rest = w ++ token :: rest) :
    grammar.declaration c s = .abort (s.errors ++ [⟨.nestedTooDeeply, token⟩]) := by
  obtain ⟨first, v, rfl⟩ := List.exists_cons_of_length_eq_add_one (n := 198) (Nat.succ.inj hw)
  have hfirst := hopeners first List.mem_cons_self
  have hcurrent : s.current = first := by rw [Cursor.current, hs, List.cons_append, List.headD_cons]
  have hexpression : (Grammar.ofDepth (maxNesting + maxArrowNesting + 1)).expression
      { c with depth := c.depth + 1 } s = .abort (s.errors ++ [⟨.nestedTooDeeply, token⟩]) := by
    rw [Grammar.expression, nested, if_neg (by simp [hc, maxNesting])]
    exact assignment_abort (unary_dives (Nat.succ.inj hw) hopeners (maxNesting + maxArrowNesting)
      (by decide) (by simp [hc, maxNesting]) hs)
  have hstatement : statement (.ofDepth (maxNesting + maxArrowNesting + 1)) c s =
      .abort (s.errors ++ [⟨.nestedTooDeeply, token⟩]) := by
    have hnone : keywordStatement? (.ofDepth (maxNesting + maxArrowNesting + 1)) first.kind = none := by
      cases hkind : first.kind <;> simp_all [opensLevel, keywordStatement?]
    rw [statement, nested, if_neg (by simp [hc, maxNesting]), bind_apply, peek, hcurrent]
    simp only [hnone]
    exact bind_abort hexpression
  have hbody : declarationBody (.ofDepth (maxNesting + maxArrowNesting + 1)) c s =
      .abort (s.errors ++ [⟨.nestedTooDeeply, token⟩]) := by
    rw [declarationBody, bind_apply, peek, hcurrent]
    cases hkind : first.kind <;> simp only [hkind, opensLevel, Bool.false_eq_true] at hfirst
    all_goals simpa only [hkind] using hstatement
  rw [grammar_declaration, recovering, hbody]

end Openers

end Parse

namespace Program

/-- Tokens that begin with as many openers as there may be levels are nested too deeply at the last of
them. -/
theorem ofTokens_openers
    {w rest : List Token}
    {token final : Token}
    (hw : w.length + 1 = maxNesting)
    (hopeners : ∀ opener ∈ w ++ [token], Parse.opensLevel opener.kind = true)
    (collectAll : Bool) :
    ofTokens (w ++ token :: rest ++ [final]) collectAll = .error [⟨.nestedTooDeeply, token⟩] := by
  unfold ofTokens
  rw [List.getLast?_concat]
  simp only [List.dropLast_concat]
  let start : Parse.Cursor :=
    ⟨(w ++ token :: rest ++ [final]).headD final, w ++ token :: rest, final, []⟩
  have hdeclaration : Parse.grammar.declaration (.outermost collectAll) start =
      .abort [⟨.nestedTooDeeply, token⟩] :=
    Parse.declaration_dives hw hopeners rfl rfl
  have hprogram : Parse.program (.outermost collectAll) start = .abort [⟨.nestedTooDeeply, token⟩] := by
    rw [Parse.program, Parse.bind_apply, Parse.budget]
    refine Parse.bind_abort ?_
    have hstop : Parse.atEnd (.outermost collectAll) start = .ok false start := by
      simp [Parse.atEnd, start]
    rw [Parse.manyUntil, Parse.bind_apply, hstop]
    exact Parse.bind_abort hdeclaration
  rw [hprogram]

/-- The statements of an accepted program fit into the levels that there may be. -/
theorem fits_of_ofTokens
    {tokens : List Token}
    {collectAll : Bool}
    {program : Program}
    (h : ofTokens tokens collectAll = .ok program) :
    ∀ s ∈ program.statements, (Inner.stmt s).Fits maxNesting := by
  obtain rfl | ⟨body, final, rfl⟩ := List.eq_nil_or_concat' tokens
  · cases h
    exact nofun
  · obtain ⟨read, t, hread, -, rfl⟩ := ofTokens_eq_ok.mp h
    have hg := (Parse.Grammar.shallow_ofDepth (maxNesting + maxArrowNesting + 2)).declaration
    have hall := Parse.Yields.manyUntil (hg maxNesting) (final :: body) (.outermost collectAll) _ read t
      (Nat.zero_add _) hread
    intro s hs
    obtain ⟨result, hresult, rfl⟩ := List.mem_filterMap.mp hs
    exact hall _ hresult s rfl

/-- The program that tokens spell if the levels of nesting are not limited, for code of at most so many
constructs inside one another. -/
def ofTokensFreely (constructs : Nat) (tokens : List Token) (collectAll : Bool) : Option Program :=
  tokens.getLast?.bind fun final =>
    match (Parse.Grammar.limitless constructs).statements (.outermost collectAll)
        ⟨tokens.headD final, tokens.dropLast, final, []⟩ with
    | .ok statements s => if s.errors.isEmpty then some ⟨statements⟩ else none
    | _ => none

/-- No function of the program has an expression for its body. -/
def HasNoArrow (program : Program) : Prop :=
  ∀ levels bodies a, program.Contains levels bodies a → a.isArrow = false

theorem Contains.bodies_le_levels
    {program : Program} {levels bodies : Nat} {a : Node}
    (h : program.Contains levels bodies a)
    (harrows : program.HasNoArrow) :
    bodies ≤ levels := by
  obtain ⟨s, hs, more, rfl, hmore⟩ := h
  exact Nat.le_trans (hmore.bodies_le_levels fun _ _ c hc => harrows _ _ c ⟨s, hs, _, rfl, hc⟩)
    (Nat.le_add_left more _)

/-- The limit on nesting is all that keeps such tokens from being a program. -/
theorem ofTokens_of_freely
    {constructs : Nat}
    {tokens : List Token}
    {collectAll : Bool}
    {program : Program}
    (h : ofTokensFreely constructs tokens collectAll = some program) :
    ofTokens tokens collectAll = .ok program ∨
      ∃ token, ofTokens tokens collectAll = .error [⟨.nestedTooDeeply, token⟩] := by
  obtain ⟨final, hfinal, h⟩ := Option.bind_eq_some_iff.mp h
  unfold ofTokens
  simp only [hfinal]
  split at h
  · next statements t hread =>
      split at h
      · next ht =>
          cases h
          have hfollows := (Parse.Grammar.statements_follow constructs).follows 0 0 hread
            (List.isEmpty_iff.mp ht)
          rcases hfollows with hprogram | ⟨token, hdeep⟩
          · refine .inl ?_
            change Parse.program (.outermost collectAll) _ = _ at hprogram
            rw [hprogram, Relocation.identity_move]
            simp [ht]
          · refine .inr ⟨token, ?_⟩
            change Parse.program (.outermost collectAll) _ = _ at hdeep
            rw [hdeep]
      · cases h
  · cases h

end Program

/-- Of the levels that are counted there are at most `maxNesting` around any part of an accepted
program; if no function has an expression for its body, there are no more functions around it. Deeper
code is rejected for its nesting: tokens that would be a program without the limit are that program or
are nested too deeply, which they are for sure if it has a part inside more levels or if they begin with
so many openers. -/
theorem nesting_limited
    (file : Nat)
    (text : List Char)
    (collectAll : Bool) :
    (∀ program, Program.ofText file text collectAll = .ok program →
      (∀ levels bodies a, program.Contains levels bodies a → levels ≤ maxNesting) ∧
      (program.HasNoArrow →
        ∀ levels bodies a, program.Contains levels bodies a → bodies ≤ maxNesting)) ∧
    ∀ tokens, Scan.tokenize file text collectAll = .ok tokens →
      (∀ constructs program, Program.ofTokensFreely constructs tokens collectAll = some program →
        (Program.ofText file text collectAll = .ok program ∨
          ∃ token, Program.ofText file text collectAll =
            .error [.syntactic ⟨.nestedTooDeeply, token⟩]) ∧
        ∀ levels bodies a, program.Contains levels bodies a → maxNesting < levels →
          ∃ token, Program.ofText file text collectAll =
            .error [.syntactic ⟨.nestedTooDeeply, token⟩]) ∧
      ∀ w token rest, tokens = w ++ token :: rest → w.length + 1 = maxNesting →
        (∀ opener ∈ w ++ [token], Parse.opensLevel opener.kind = true) →
          Program.ofText file text collectAll =
            .error [.syntactic ⟨.nestedTooDeeply, token⟩] := by
  have hlevels (program : Program) (h : Program.ofText file text collectAll = .ok program)
      (levels bodies : Nat) (a : Node) (ha : program.Contains levels bodies a) :
      levels ≤ maxNesting := by
    obtain ⟨tokens, -, htokens⟩ := Program.ofText_eq_ok.mp h
    exact Program.levels_le_of_fits (Program.fits_of_ofTokens htokens) ha
  refine ⟨fun program h => ⟨hlevels program h, fun harrows levels bodies a ha => ?_⟩,
    fun tokens htokens => ?_⟩
  · exact Nat.le_trans (ha.bodies_le_levels harrows) (hlevels program h levels bodies a ha)
  have hrejected (token : Token)
      (h : Program.ofTokens tokens collectAll = .error [⟨.nestedTooDeeply, token⟩]) :
      Program.ofText file text collectAll = .error [.syntactic ⟨.nestedTooDeeply, token⟩] := by
    unfold Program.ofText
    simp only [htokens, h, List.map_singleton]
  refine ⟨fun constructs program hprogram => ?_, fun w token rest hsplit hw hopeners => ?_⟩
  · have heither : Program.ofText file text collectAll = .ok program ∨
        ∃ token, Program.ofText file text collectAll =
          .error [.syntactic ⟨.nestedTooDeeply, token⟩] :=
      (Program.ofTokens_of_freely hprogram).imp
        (fun h => Program.ofText_eq_ok.mpr ⟨tokens, Scan.tokenize_eq_ok.mp htokens, h⟩)
        fun ⟨token, h⟩ => ⟨token, hrejected token h⟩
    refine ⟨heither, fun levels bodies a ha hdeep => heither.resolve_left fun h => ?_⟩
    exact absurd (hlevels program h levels bodies a ha) (Nat.not_le_of_lt hdeep)
  · refine hrejected token ?_
    obtain rfl | ⟨rest, final, rfl⟩ := List.eq_nil_or_concat' rest
    · have hend := congrArg List.getLast? (tokens_eq_concat (Scan.tokenize_eq_ok.mp htokens))
      rw [hsplit, List.getLast?_concat, List.getLast?_concat] at hend
      have hopener := hopeners token (by simp)
      rw [Option.some.inj hend] at hopener
      cases hopener
    · rw [hsplit, ← List.cons_append, ← List.append_assoc]
      exact Program.ofTokens_openers hw hopeners collectAll

/-- How many signs stand before an operand. -/
def Expr.signs : Expr → Nat
  | .unary _ operand _ => operand.signs + 1
  | _ => 0

theorem Expr.contains_signs (e : Expr) : ∃ b, (Node.expression e).Contains e.signs 0 b := by
  fun_induction Expr.signs e with
  | case1 op operand span ih =>
      obtain ⟨b, hb⟩ := ih
      refine ⟨b, ?_⟩
      rw [Nat.add_comm]
      exact @Node.Contains.part (.expression (.unary op operand span)) b (.value 1 operand) _ 0
        (List.mem_singleton_self _) hb
  | case2 => exact ⟨_, .self _⟩

/-- How many levels there are around the operand behind the signs that a statement begins with. -/
def Stmt.signs : Stmt → Nat
  | .expression e _ => e.signs + 1
  | _ => 0

theorem Stmt.contains_signs (s : Stmt) : ∃ b, (Node.statement s).Contains s.signs 0 b := by
  fun_cases Stmt.signs s with
  | case1 e span =>
      obtain ⟨b, hb⟩ := e.contains_signs
      refine ⟨b, ?_⟩
      rw [Nat.add_comm]
      exact @Node.Contains.part (.statement (.expression e span)) b (.value 1 e) _ 0
        (List.mem_singleton_self _) hb
  | case2 => exact ⟨_, .self _⟩

/-- A name is accepted; behind as many signs as there may be levels it is nested too deeply. -/
theorem nesting_limited_signs :
    let signs := List.replicate 200 '!' ++ "a;".toList
    (∃ program, Program.ofText 1 "a;".toList true = .ok program ∧
      ∀ levels bodies a, program.Contains levels bodies a →
        levels ≤ maxNesting ∧ bodies ≤ maxNesting) ∧
    ∃ tokens program, Scan.tokenize 1 signs true = .ok tokens ∧
      Program.ofTokensFreely 210 tokens true = some program ∧
      (∃ token, Program.ofText 1 signs true = .error [.syntactic ⟨.nestedTooDeeply, token⟩]) ∧
      ∃ token, tokens[199]? = some token ∧
        Program.ofText 1 signs true = .error [.syntactic ⟨.nestedTooDeeply, token⟩] := by
  intro signs
  have hname : Program.ofText 1 "a;".toList true =
      .ok ⟨[.expression (.reference "a" (.ofLength 1 0 1)) (.ofLength 1 0 2)]⟩ := rfl
  have harrows : Program.HasNoArrow
      ⟨[.expression (.reference "a" (.ofLength 1 0 1)) (.ofLength 1 0 2)]⟩ := by
    rintro _ _ _ ⟨_, hs, _, rfl, hcontains⟩
    cases List.mem_singleton.mp hs
    cases hcontains with
    | self => rfl
    | part hpart hinside =>
        cases List.mem_singleton.mp hpart
        cases hinside with
        | self => rfl
        | part hnone _ => cases hnone
  have haccepted := (nesting_limited 1 "a;".toList true).1 _ hname
  refine ⟨⟨_, hname, fun levels bodies a ha =>
    ⟨haccepted.1 levels bodies a ha, haccepted.2 harrows levels bodies a ha⟩⟩, ?_⟩
  -- The text is evaluated once, and the tree without a limit is inspected for its signs.
  have hread : (Scan.tokenize 1 signs true).toOption.bind (fun tokens =>
      (Program.ofTokensFreely 210 tokens true).bind fun program =>
        program.statements.head?.map fun s =>
          (s.level + s.signs, (tokens.take 200).all fun t => Parse.opensLevel t.kind,
            tokens.length)) =
        some (202, true, 203) := by
    decide +kernel
  obtain ⟨tokens, hscan, hread⟩ := Option.bind_eq_some_iff.mp hread
  obtain ⟨program, hprogram, hread⟩ := Option.bind_eq_some_iff.mp hread
  obtain ⟨s, hs, hread⟩ := Option.map_eq_some_iff.mp hread
  obtain ⟨hsigns, hrest⟩ := Prod.mk.inj hread
  obtain ⟨hopeners, hlength⟩ := Prod.mk.inj hrest
  have htokens : Scan.tokenize 1 signs true = .ok tokens := by
    cases h : Scan.tokenize 1 signs true with
    | ok read => rw [h] at hscan; cases hscan; rfl
    | error errors => rw [h] at hscan; cases hscan
  have hrejected := (nesting_limited 1 signs true).2 tokens htokens
  refine ⟨tokens, program, htokens, hprogram, ?_, ?_⟩
  · obtain ⟨b, hb⟩ := s.contains_signs
    have hwhole : program.Contains (s.level + s.signs) 0 b :=
      ⟨s, List.mem_of_head? hs, _, rfl, hb⟩
    exact (hrejected.1 210 _ hprogram).2 _ 0 b hwhole (by rw [hsigns]; decide)
  · have hlt : 199 < tokens.length := by omega
    have htake : tokens.take 199 ++ [tokens[199]] = tokens.take 200 := List.take_append_getElem hlt
    refine ⟨tokens[199], List.getElem?_eq_getElem hlt, ?_⟩
    refine hrejected.2 (tokens.take 199) tokens[199] (tokens.drop 200) ?_ ?_ ?_
    · rw [← List.drop_eq_getElem_cons hlt, List.take_append_drop]
    · rw [List.length_take, hlength]
      decide
    · rw [htake]
      exact List.all_eq_true.mp hopeners

section Arrows

namespace Parse

/-- The kinds of the tokens of so many arrow functions, each the body of the one before it, around a
number. -/
def arrowKinds : Nat → List TokenKind
  | 0 => [.number]
  | arrows + 1 => .leftParen :: .rightParen :: .arrow :: arrowKinds arrows

variable {c : Context} {w rest later : List Token} {next : Token}

/-- The body of an arrow function is read in a function. -/
theorem Gives.nestedArrow
    {α : Type}
    {p : Parse α}
    {Q : α → Prop}
    (harrows : c.arrows < maxArrowNesting)
    (hp : Gives { c.enterFunction with arrows := c.arrows + 1 } w rest p Q) :
    Gives c w rest (Parse.nestedArrow p) Q where
  run s hs := by
    rw [Parse.nestedArrow, if_neg (Nat.not_le_of_lt harrows)]
    exact hp.run s hs

theorem Gives.parameters_none (hnext : next.kind = .rightParen) :
    Gives c [] (next :: later) parameters (· = []) := by
  refine check rfl ?_
  rw [hnext, beq_self_eq_true]
  exact pure rfl

/-- An operand that begins with no sign is a whole expression if no operator follows. -/
theorem Gives.assignment_of_primary
    {g : Grammar}
    {first : Token}
    {Q : Expr → Prop}
    (hfirst : unaryOp? first.kind = none)
    (hnext : Surface.Level.assignment.endsBefore next.kind = true)
    (h : Gives c (first :: w) (next :: later) (primary g) Q) :
    Gives c (first :: w) (next :: later) (assignment g) Q :=
  .climb .primary .assignment (by decide) (fun _ => ⟨first, w, rfl, hfirst⟩) hnext h

/-- Arrow functions are read one inside the other, and no level is counted. -/
theorem gives_arrows
    {arrows depth : Nat}
    (hw : w.map (·.kind) = arrowKinds arrows)
    (hdepth : arrows ≤ depth)
    (harrows : c.arrows + arrows ≤ maxArrowNesting)
    (hnext : Surface.Level.assignment.endsBefore next.kind = true) :
    Gives c w (next :: later) (assignment (.ofDepth depth)) fun e =>
      ∃ b, (Node.expression e).Contains 0 arrows b := by
  induction arrows generalizing w c depth with
  | zero =>
      obtain ⟨number, rfl, hnumber⟩ := List.map_eq_singleton_iff.mp hw
      refine .assignment_of_primary (by rw [hnumber]; rfl) hnext (.peek rfl ?_)
      rw [hnumber]
      exact .bind_last .advance fun _ _ => .pure ⟨_, .self _⟩
  | succ arrows ih =>
      obtain ⟨opening, w, rfl, hopening, hw⟩ := List.map_eq_cons_iff.mp hw
      obtain ⟨closing, w, rfl, hclosing, hw⟩ := List.map_eq_cons_iff.mp hw
      obtain ⟨arrow, w, rfl, harrow, hw⟩ := List.map_eq_cons_iff.mp hw
      obtain ⟨depth, rfl⟩ := Nat.exists_eq_add_one_of_ne_zero (Nat.ne_zero_of_lt hdepth)
      obtain ⟨first, v, rfl, hfirst⟩ : ∃ first v, w = first :: v ∧ first.kind ≠ .leftBrace := by
        cases arrows <;> obtain ⟨first, v, rfl, hfirst, -⟩ := List.map_eq_cons_iff.mp hw <;>
          exact ⟨first, v, rfl, by rw [hfirst]; decide⟩
      have hbody : Gives c (first :: v) (next :: later)
          (Parse.nestedArrow (Grammar.ofDepth (depth + 1)).assignment) fun e =>
            ∃ b, (Node.expression e).Contains 0 arrows b :=
        .nestedArrow (by omega) (ih hw (Nat.le_of_succ_le_succ hdepth) (by simp only; omega))
      refine .assignment_of_primary (by rw [hopening]; rfl) hnext (.peek rfl ?_)
      rw [hopening]
      refine .remaining ?_
      rw [if_pos (by simp [startsArrow, hclosing, harrow])]
      refine .bind (u := [opening]) .advance fun _ _ => ?_
      refine .bind_first (.parameters_none hclosing) fun params _ => ?_
      refine .bind (u := [closing]) (.require hclosing) fun _ _ => ?_
      refine .bind (u := [arrow]) (.require harrow) fun _ _ => ?_
      refine .bind_first (.accept_other hfirst) ?_
      rintro _ rfl
      rw [if_neg (by simp)]
      refine .bind_last hbody fun value hvalue => .bind_last (R := (· = _)) (.pure rfl) ?_
      rintro _ rfl
      obtain ⟨b, hb⟩ := hvalue
      refine .spanFrom fun span => .pure ⟨b, ?_⟩
      have hpart : ⟨0, 1, .expression value⟩ ∈ (Node.expression
          (.function params [.returnValue (some value) value.span] span)).nested := by
        simp [Node.nested, Expr.nested, Stmt.bodyNested, Stmt.arrowValue?]
      rw [Nat.add_comm]
      exact @Node.Contains.part _ b ⟨0, 1, .expression value⟩ 0 arrows hpart hb

end Parse

/-- Arrow functions are accepted however few levels there may be. -/
theorem Program.ofTokens_arrows
    {arrows : Nat}
    {w : List Token}
    {semicolon : Token}
    (hw : w.map (·.kind) = Parse.arrowKinds (arrows + 1))
    (harrows : arrows + 1 ≤ maxArrowNesting)
    (hsemicolon : semicolon.kind = .semicolon)
    (final : Token)
    (collectAll : Bool) :
    ∃ program levels b, ofTokens (w ++ [semicolon, final]) collectAll = .ok program ∧
      program.Contains levels (arrows + 1) b := by
  have hexpression : Parse.Gives { Parse.Context.outermost collectAll with depth := 1 } w [semicolon]
      (Parse.Grammar.ofDepth (maxNesting + maxArrowNesting + 1)).expression fun e =>
        ∃ b, (Node.expression e).Contains 0 (arrows + 1) b :=
    .nested (Nat.lt_of_sub_eq_succ rfl) (Parse.gives_arrows hw (Nat.le_trans harrows (by decide))
      (by simpa [Parse.Context.outermost] using harrows) (by rw [hsemicolon]; decide))
  obtain ⟨opening, w, rfl, hopening, -⟩ := List.map_eq_cons_iff.mp hw
  obtain ⟨e, span, hprogram, b, hb⟩ :=
    Program.ofTokens_expression hopening hsemicolon final hexpression
  refine ⟨_, 2, b, hprogram, .expression e span, List.mem_singleton_self _, 1, rfl, ?_⟩
  have hwhole := @Node.Contains.part (.statement (.expression e span)) b (.value 1 e) 0 (arrows + 1)
    (List.mem_singleton_self _) hb
  rwa [Inner.value, Nat.zero_add] at hwhole

end Arrows

/-- A number inside 201 functions is accepted. -/
theorem arrows_pass_the_limit :
    let text := (List.replicate 201 "() => ".toList).flatten ++ "1;".toList
    ∃ program levels bodies a, Program.ofText 1 text true = .ok program ∧
      program.Contains levels bodies a ∧ maxNesting < bodies := by
  intro text
  have hkinds : (Scan.tokenize 1 text true).toOption.map (·.map (·.kind)) =
      some (Parse.arrowKinds 201 ++ [.semicolon, .endOfInput]) := by
    decide +kernel
  obtain ⟨tokens, htokens, hkinds⟩ := Option.map_eq_some_iff.mp hkinds
  obtain ⟨w, last, rfl, hw, hlast⟩ := List.map_eq_append_iff.mp hkinds
  obtain ⟨semicolon, last, rfl, hsemicolon, hlast⟩ := List.map_eq_cons_iff.mp hlast
  obtain ⟨final, rfl, -⟩ := List.map_eq_singleton_iff.mp hlast
  obtain ⟨program, levels, b, hprogram, hb⟩ :=
    Program.ofTokens_arrows hw (by decide) hsemicolon final true
  refine ⟨program, levels, 201, b, Program.ofText_eq_ok.mpr ⟨_, ?_, hprogram⟩, hb, by decide⟩
  cases hscan : Scan.tokenize 1 text true with
  | ok read =>
      rw [hscan] at htokens
      cases htokens
      exact Scan.tokenize_eq_ok.mp hscan
  | error errors =>
      rw [hscan] at htokens
      cases htokens

end Lox
