import Lox.Proofs.Descent.Grammar

/-!
# Where reading goes on after a failure

A declaration that fails at a token goes on behind it: at the first token behind the offending one that
begins a statement, follows the end of one or is the last. So a statement that begins with the offending
token itself, as after a missing semicolon, is passed over, and its own errors are not found.
-/

namespace Lox.Descent

section Statements

/-- From the token `i` on, may a statement be looked for at the token `j`? It is the last one, begins
a statement or, behind the token `i`, follows the end of one. -/
def Setting.StatementAt (T : Setting) (i j : Nat) : Prop :=
  T.Last j ∨ Parse.startsStatement (T.tokenAt j).kind = true ∨
    i < j ∧ Parse.endsStatement (T.tokenAt (j - 1)).kind = true

/-- The first token from the token `i` on at which a statement may be looked for is the token `j`. -/
structure Setting.NextStatement (T : Setting) (i j : Nat) : Prop where
  le : i ≤ j
  inside : j < T.tokens.length
  statement : T.StatementAt i j
  least : ∀ k, i ≤ k → k < j → ¬T.StatementAt i k

variable {T : Setting} {i j : Nat}

theorem Setting.statementAt_iff (h : i < j) : T.StatementAt i j ↔ T.Boundary j := by
  unfold StatementAt Boundary
  rw [and_iff_right h]
  exact or_congr_right or_comm

/-- Going on behind the offending token is going on at the next statement unless that token begins
one. -/
theorem Setting.FirstBoundary.nextStatement_iff
    (hi : i < T.tokens.length)
    (h : T.FirstBoundary (if T.Last i then i else i + 1) j) :
    T.NextStatement i j ↔ Parse.startsStatement (T.tokenAt i).kind = false := by
  split at h
  · next hlast =>
      have hkind := (Setting.kind_tokenAt_iff hi).mpr hlast
      have hhere : j = i := by
        have := h.inside
        have := h.le
        unfold Last at hlast
        omega
      subst hhere
      refine iff_of_true ⟨h.le, h.inside, .inl hlast, fun k hk hkj => ?_⟩ (by rw [hkind]; rfl)
      omega
  · next hlast =>
      constructor
      · intro hnext
        rw [Bool.eq_false_iff]
        exact fun hstarts => hnext.least i (Nat.le_refl i) h.le (.inr (.inl hstarts))
      · intro hstarts
        refine ⟨Nat.le_of_succ_le h.le, h.inside, (statementAt_iff h.le).mpr h.boundary,
          fun k hik hkj => ?_⟩
        rcases Nat.eq_or_lt_of_le hik with rfl | hlt
        · simp [StatementAt, hlast, hstarts]
        · exact mt (statementAt_iff hlt).mp (h.least k hlt hkj)

end Statements

section Failures

/-- The tokens of two lines, the first of which lacks its semicolon and the second a name. -/
def unfinishedPrint : List Token :=
  (Scan.ofText 0 "print 1\nvar = 2;".toList true).tokens

theorem unfinishedPrint_ends : EndsOnce unfinishedPrint := by
  decide +kernel

/-- A declaration that fails, at whatever depth, does so at the token that its error names. It goes on
at the first boundary behind this token, or stays there at the end of the input. This is the next
statement, counted from the offending token on, if and only if that token does not begin one. -/
theorem recovery_resumes
    {T : Setting} {k : Counters} {depth start : Nat}
    {errors : List ParseError} {e : ParseError} {s : Parse.Cursor}
    (hall : T.mode.collectAll = true)
    (hdepth : k.levels ≤ depth)
    (hstart : start < T.tokens.length)
    (hfail : Parse.declarationBody (.ofDepth depth) (T.context k) (T.cursor start errors)
      = .fail e s) :
    ∃ i j, start ≤ i ∧ s = T.cursor i s.errors ∧ e.token = T.tokenAt i ∧
      Parse.declaration (.ofDepth depth) (T.context k) (T.cursor start errors)
        = .ok none (T.cursor j (s.errors ++ [e])) ∧
      T.FirstBoundary (if T.Last i then i else i + 1) j ∧
      (T.NextStatement i j ↔ Parse.startsStatement (T.tokenAt i).kind = false) := by
  let σ : State := ⟨start, errors.filter T.counts, k⟩
  have hg := Calls.track_upTo T.tokens.length (Nat.le_refl depth)
  have hready : Ready T (depth + 1) (Calls.upTo T.tokens.length depth).turns σ errors :=
    ⟨hstart, rfl, Nat.lt_succ_of_le hdepth, by rw [Calls.turns_upTo]; omega⟩
  have hagree := Tracks.declarationBody hg T σ errors hready
  rw [hfail] at hagree
  generalize declarationBody (Calls.upTo T.tokens.length depth) T σ = o at hagree
  cases hagree with
  | @raised _ τ _ htoken hfault h =>
      obtain ⟨j, hj, hsynchronize⟩ := synchronize_cursor (s.errors ++ [e]) h.inside
      refine ⟨τ.current, j, h.pace, h.cursor, ?_, ?_, hj, hj.nextStatement_iff h.inside⟩
      · rw [htoken, h.cursor, Setting.current_cursor h.inside]
      · have hrecord : s.record e = T.cursor τ.current (s.errors ++ [e]) := by
          rw [h.cursor]
          rfl
        have hcontext : (T.context k).collectAll = true := hall
        unfold Parse.declaration Parse.recovering
        simp only [hfail, Parse.report, hcontext, if_true, hrecord, hsynchronize]

/-- The declaration without a name fails at the equals sign, which begins no statement, so reading goes
on at the next one. -/
theorem recovery_resumes_unnamed :
    let T : Setting := ⟨unfinishedPrint, unfinishedPrint_ends, .all⟩
    let e : ParseError := ⟨.expectedToken "variable name" none, T.tokenAt 3⟩
    Parse.declarationBody (.ofDepth 581) (T.context .outermost) (T.cursor 2 [])
        = .fail e (T.cursor 3 []) ∧
      ∃ i j, T.cursor 3 [] = T.cursor i [] ∧ e.token = T.tokenAt i ∧
        Parse.declaration (.ofDepth 581) (T.context .outermost) (T.cursor 2 [])
          = .ok none (T.cursor j [e]) ∧
        T.NextStatement i j := by
  intro T e
  have hfail : Parse.declarationBody (.ofDepth 581) (T.context .outermost) (T.cursor 2 [])
      = .fail e (T.cursor 3 []) := rfl
  obtain ⟨i, j, -, hs, htoken, hresumes, -, hnext⟩ :=
    recovery_resumes rfl (by decide) (by decide +kernel) hfail
  exact ⟨hfail, i, j, hs, htoken, hresumes, hnext.mpr (htoken ▸ rfl)⟩

/-- After the missing semicolon the declaration of the second line is the next statement. It is passed
over: reading goes on at the end, and that the declaration lacks a name is not reported. -/
theorem recovery_passes_over_declaration :
    let T : Setting := ⟨unfinishedPrint, unfinishedPrint_ends, .all⟩
    let e : ParseError := ⟨.expectedToken "';' after value" none, T.tokenAt 2⟩
    T.NextStatement 2 2 ∧
      Parse.declarationBody (.ofDepth 581) (T.context .outermost) (T.cursor 0 [])
        = .fail e (T.cursor 2 []) ∧
      Parse.declaration (.ofDepth 581) (T.context .outermost) (T.cursor 0 [])
        = .ok none (T.cursor 6 [e]) ∧
      Program.ofTokens unfinishedPrint true = .error [e] := by
  refine ⟨⟨Nat.le_refl 2, by decide +kernel, .inr (.inl rfl), by omega⟩, rfl, rfl, ?_⟩
  have herrors :
      (Program.ofTokens unfinishedPrint true).rec (motive := fun _ => List ParseError) id (fun _ => []) =
        [⟨.expectedToken "';' after value" none, (unfinishedPrint[2]?).getD (endToken 0 [])⟩] := by
    decide +kernel
  cases hparsed : Program.ofTokens unfinishedPrint true with
  | ok program =>
      rw [hparsed] at herrors
      cases herrors
  | error errors =>
      rw [hparsed] at herrors
      exact congrArg Except.error herrors

end Failures

end Lox.Descent
