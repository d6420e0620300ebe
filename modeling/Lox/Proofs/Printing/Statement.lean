import Lox.Proofs.Parse.Joining
import Lox.Proofs.Printing.Giving

/-!
# A program of one expression

What the reader of expressions gives for tokens that begin with a parenthesis is, with a semicolon
behind it, all there is of a program.
-/

namespace Lox

open Parse

variable {opening semicolon : Token} {w rest : List Token} {Q : Expr → Prop} {collectAll : Bool}

/-- An expression and a semicolon are a declaration. -/
theorem Parse.Gives.expressionDeclaration
    (hopening : opening.kind = .leftParen)
    (hsemicolon : semicolon.kind = .semicolon)
    (h : Gives { Context.outermost collectAll with depth := 1 } (opening :: w) (semicolon :: rest)
      (Grammar.ofDepth (maxNesting + maxArrowNesting + 1)).expression Q) :
    Gives (.outermost collectAll) (opening :: w ++ [semicolon]) rest grammar.declaration fun stmt? =>
      ∃ e span, stmt? = some (.expression e span) ∧ Q e := by
  have hstatement : Gives (.outermost collectAll) (opening :: w ++ [semicolon]) rest
      (statement (.ofDepth (maxNesting + maxArrowNesting + 1))) fun stmt =>
        ∃ e span, stmt = .expression e span ∧ Q e := by
    refine .nested (Nat.lt_of_sub_eq_succ rfl) (.peek rfl ?_)
    rw [hopening]
    refine .bind h fun e he => .bind_last (.require hsemicolon) fun _ _ => .previous fun token => ?_
    exact .pure ⟨e, _, rfl, he⟩
  have hbody : Gives (.outermost collectAll) (opening :: w ++ [semicolon]) rest
      (declarationBody (.ofDepth (maxNesting + maxArrowNesting + 1))) fun stmt =>
        ∃ e span, stmt = .expression e span ∧ Q e := by
    refine .peek rfl ?_
    rw [hopening]
    exact hstatement
  rw [grammar_declaration]
  refine hbody.recovering.mono ?_
  rintro _ ⟨stmt, rfl, e, span, rfl, he⟩
  exact ⟨e, span, rfl, he⟩

/-- An expression and a semicolon are a program of one statement. -/
theorem Program.ofTokens_expression
    (hopening : opening.kind = .leftParen)
    (hsemicolon : semicolon.kind = .semicolon)
    (final : Token)
    (h : Gives { Context.outermost collectAll with depth := 1 } (opening :: w) [semicolon]
      (Grammar.ofDepth (maxNesting + maxArrowNesting + 1)).expression Q) :
    ∃ e span, ofTokens (opening :: w ++ [semicolon, final]) collectAll =
      .ok ⟨[.expression e span]⟩ ∧ Q e := by
  have hread : Gives (.outermost collectAll) (opening :: w ++ [semicolon]) []
      (declarations (final :: (opening :: w ++ [semicolon])) []) fun read =>
        ∃ e span, read = [some (.expression e span)] ∧ Q e := by
    refine .bind_first .atEnd ?_
    rintro _ rfl
    rw [if_neg (by simp)]
    refine .bind_last (h.expressionDeclaration hopening hsemicolon) ?_
    rintro _ ⟨e, span, rfl, he⟩
    exact .bind_first .atEnd fun _ hend => hend ▸ .pure ⟨e, span, rfl, he⟩
  obtain ⟨_, t, hrun, -, herrors, e, span, rfl, he⟩ :=
    hread.run ⟨opening, opening :: w ++ [semicolon], final, []⟩ (List.append_nil _).symm
  refine ⟨e, span, ?_, he⟩
  have hprogram := ofTokens_eq_ok.mpr ⟨_, t, hrun, herrors, rfl⟩
  simpa using hprogram

end Lox
