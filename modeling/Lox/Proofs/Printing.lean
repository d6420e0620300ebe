import Lox.Proofs.Printing.Statement
import Lox.Proofs.Printing.Operations

/-!
# The parser undoes the printer

Every expression that can be printed and is not too high is read back as it was, up to places, when
it stands in parentheses before a semicolon. The limit on the height comes from the limit on nesting:
every part of an expression is at most two levels further in than the whole.
-/

namespace Lox

open Parse Relocation Surface

section Readable

mutual

/-- What can be printed is read back. -/
theorem Expr.readable : ∀ e : Expr, e.isPrintable = true → e.Readable
  | .literal value span, _ => .literal value span
  | .reference name span, _ => .reference name span
  | .assign name value span, h => .assign (value.readable h) name span
  | .binary left op right span, h =>
      have ⟨hl, hr⟩ := Bool.and_eq_true_iff.mp h
      .binary (left.readable hl) (right.readable hr) op span
  | .unary op operand span, h => .unary (operand.readable h) op span
  | .logical left op right span, h =>
      have ⟨hl, hr⟩ := Bool.and_eq_true_iff.mp h
      .logical (left.readable hl) (right.readable hr) op span
  | .conditional condition thenBranch elseBranch span, h =>
      have ⟨hct, he⟩ := Bool.and_eq_true_iff.mp h
      have ⟨hc, ht⟩ := Bool.and_eq_true_iff.mp hct
      .conditional (condition.readable hc) (thenBranch.readable ht) (elseBranch.readable he) span
  | .call callee arguments span, h =>
      have ⟨hcl, ha⟩ := Bool.and_eq_true_iff.mp h
      have ⟨hc, hlength⟩ := Bool.and_eq_true_iff.mp hcl
      .call (callee.readable hc) (Expr.readable_of_mem arguments ha) (of_decide_eq_true hlength) span
  | .get object name span, h => .get (object.readable h) name span
  | .set object name value span, h =>
      have ⟨ho, hv⟩ := Bool.and_eq_true_iff.mp h
      .set (object.readable ho) (value.readable hv) name span
  | .index object index span, h =>
      have ⟨ho, hi⟩ := Bool.and_eq_true_iff.mp h
      .index (object.readable ho) (index.readable hi) span
  | .indexSet object index value span, h =>
      have ⟨hoi, hv⟩ := Bool.and_eq_true_iff.mp h
      have ⟨ho, hi⟩ := Bool.and_eq_true_iff.mp hoi
      .indexSet (object.readable ho) (index.readable hi) (value.readable hv) span
  | .list elements span, h => .list (Expr.readable_of_mem elements h) span
  | .map entries span, h => .map (MapEntry.readable_of_mem entries h) span

theorem Expr.readable_of_mem :
    ∀ es : List Expr, Expr.allPrintable es = true → ∀ e ∈ es, e.Readable
  | [], _, _, hmem => nomatch hmem
  | e :: es, h, a, hmem => by
      obtain ⟨he, hes⟩ := Bool.and_eq_true_iff.mp h
      rcases List.mem_cons.mp hmem with heq | hmem
      · exact heq ▸ e.readable he
      · exact Expr.readable_of_mem es hes a hmem

theorem MapEntry.readable : ∀ entry : MapEntry, entry.isPrintable = true → entry.Readable
  | .mk key value, h =>
      have ⟨hk, hv⟩ := Bool.and_eq_true_iff.mp h
      ⟨key.readable hk, value.readable hv⟩

theorem MapEntry.readable_of_mem :
    ∀ entries : List MapEntry, MapEntry.allPrintable entries = true →
      ∀ entry ∈ entries, entry.Readable
  | [], _, _, hmem => nomatch hmem
  | entry :: entries, h, a, hmem => by
      obtain ⟨he, hes⟩ := Bool.and_eq_true_iff.mp h
      rcases List.mem_cons.mp hmem with heq | hmem
      · exact heq ▸ entry.readable he
      · exact MapEntry.readable_of_mem entries hes a hmem

end

end Readable

/-- The parser undoes the printer. Tokens that spell a printed expression of height at most 90, a
semicolon and the end of the input are a program with just one statement, and its expression is the
one that was printed, except for places. -/
theorem printed_parses
    {e : Expr}
    (hprintable : e.isPrintable = true)
    (hheight : e.height ≤ 90)
    {tokens : List Token}
    (htokens : Spelled tokens (e.printed ++ [.plain .semicolon, .plain .endOfInput]))
    (collectAll : Bool) :
    ∃ e' span, Program.ofTokens tokens collectAll = .ok ⟨[.expression e' span]⟩ ∧
      move erasure e' = move erasure e := by
  obtain ⟨w, _, rfl, hw, hend⟩ := spelled_append.mp htokens
  obtain ⟨semicolon, _, hsemicolon, hfinal, rfl⟩ := List.forall₂_cons_right_iff.mp hend
  obtain ⟨final, rfl, -⟩ := spelled_singleton.mp hfinal
  have hexpression : Gives { Context.outermost collectAll with depth := 1 } w [semicolon]
      (Grammar.ofDepth (maxNesting + maxArrowNesting + 1)).expression (Alike e) := by
    have hroom : Room { Context.outermost collectAll with depth := 1 }
        (maxNesting + maxArrowNesting + 1) (2 * e.height + 2) :=
      ⟨by simp only [maxNesting, maxArrowNesting]; omega, by simp only [maxNesting]; omega⟩
    exact (e.readable hprintable).nested hroom .assignment Grammar.assignment (fun _ => rfl) hw
      (by rw [hsemicolon]; decide) (by rw [hsemicolon]; decide)
  obtain ⟨opening, v, closing, rfl, hopening, -⟩ := spelled_enclose.mp hw
  exact Program.ofTokens_expression hopening hsemicolon final hexpression

theorem printed_parses_set :
    let e : Expr :=
      .set (.reference "o" nowhere) "p"
        (.call (.reference "f" nowhere)
          [.list [] nowhere,
            .map [.mk (.reference "k" nowhere) (.literal (.string "v") nowhere)] nowhere]
          nowhere)
        nowhere
    ∃ tokens e' span,
      Spelled tokens (e.printed ++ [.plain .semicolon, .plain .endOfInput]) ∧
        Program.ofTokens tokens true = .ok ⟨[.expression e' span]⟩ ∧
        move erasure e' = e := by
  intro e
  obtain ⟨tokens, htokens⟩ := exists_spelled (e.printed ++ [.plain .semicolon, .plain .endOfInput])
  obtain ⟨e', span, hprogram, he'⟩ := printed_parses (by decide) (by decide) htokens true
  exact ⟨tokens, e', span, htokens, hprogram, he'⟩

end Lox
