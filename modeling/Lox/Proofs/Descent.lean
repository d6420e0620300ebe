import Lox.Proofs.Descent.Grammar

/-!
# Parsing ends and leaves nothing behind

A descent through the tokens of a program ends, whether the first error ends it or all are collected,
and it has the library's answer: the program if no error was recorded, and the errors otherwise. Every
declaration on the way ends the whole descent or returns behind the place where it began, with all
counters as they were, even if it has recovered from an error deep inside.
-/

namespace Lox.Descent

section Errors

variable {α β : Type} {m : Descent α} {f : α → Descent β} {turns : Nat}

/-- No error gets out of the descent. -/
def Contains (m : Descent α) : Prop :=
  ∀ (T : Setting) (σ τ : State) (e : ParseError), m T σ ≠ .raised e τ

theorem Contains.bind (hm : Contains m) (hf : ∀ a, Contains (f a)) : Contains (m >>= f) := by
  intro T σ τ e h
  rw [bind_apply] at h
  cases hfirst : m T σ with
  | returned a υ =>
      rw [hfirst] at h
      exact hf a T υ τ e h
  | raised e υ => exact hm T σ υ e hfirst
  | aborted υ => simp [hfirst] at h
  | running => simp [hfirst] at h

theorem Contains.of_returns (hm : ∀ T σ, ∃ a τ, m T σ = .returned a τ) : Contains m := by
  intro T σ τ e h
  obtain ⟨a, υ, hreturns⟩ := hm T σ
  rw [hreturns] at h
  cases h

theorem Contains.pure (a : α) : Contains (pure a : Descent α) :=
  of_returns fun _ σ => ⟨a, σ, rfl⟩

theorem contains_unfinished : Contains (unfinished : Descent α) := by
  intro T σ τ e h
  unfold unfinished at h
  cases h

theorem Contains.repeatWhile
    {σ ρ : Type}
    {test : Descent Bool}
    {turn : σ → Descent (σ × Bool)}
    {result : σ → ρ}
    (htest : Contains test)
    (hturn : ∀ s, Contains (turn s))
    (turns : Nat)
    (s : σ) :
    Contains (repeatWhile test turn result turns s) := by
  induction turns generalizing s with
  | zero => exact contains_unfinished
  | succ turns ih =>
      refine htest.bind fun holds => ?_
      split
      · refine (hturn s).bind fun next => ?_
        split
        · exact ih next.1
        · exact .pure _
      · exact .pure _

theorem contains_advance : Contains advance := by
  refine .of_returns fun T σ => ?_
  unfold advance
  split
  · exact ⟨_, _, rfl⟩
  · exact ⟨_, _, rfl⟩

theorem contains_report (e : ParseError) : Contains (report e) := by
  intro T σ τ f h
  change (if T.mode.collectAll then _ else _) = _ at h
  split at h <;> cases h

theorem contains_withinStatement : Contains withinStatement := by
  refine Contains.bind (.of_returns fun _ _ => ⟨_, _, rfl⟩) fun ended => ?_
  split
  · exact .pure _
  · exact Contains.of_returns fun _ _ => ⟨_, _, rfl⟩

/-- Recovery lets no error out. -/
theorem contains_recovering (m : Descent Stmt) : Contains (recovering turns m) := by
  intro T σ τ e h
  unfold recovering at h
  cases hm : m T σ with
  | returned stmt υ => simp [hm] at h
  | aborted υ => simp [hm] at h
  | running => simp [hm] at h
  | raised e' υ =>
      have hsynchronize : Contains (synchronize turns) :=
        contains_advance.bind fun _ => .repeatWhile contains_withinStatement
          (fun _ => contains_advance.bind fun _ => .pure _) turns ()
      have hrecovery : Contains (do report e'; synchronize turns; return (none : Option Stmt)) :=
        (contains_report e').bind fun _ => hsynchronize.bind fun _ => .pure _
      simp only [hm] at h
      exact hrecovery T υ τ e h

theorem contains_declaration (turns calls : Nat) : Contains (Calls.upTo turns calls).declaration := by
  cases calls with
  | zero => exact contains_unfinished
  | succ calls => exact contains_recovering _

end Errors

section Programs

/-- The mode in which misplaced constructs are errors like others. -/
def Mode.strict (collectAll : Bool) : Mode :=
  if collectAll then .all else .first

/-- So many turns and calls are enough for so many tokens. -/
def enough (tokens : List Token) : Nat :=
  maxNesting + maxArrowNesting + 2 + tokens.length

variable {T : Setting} {bound : Nat}

theorem levels_lt (k : Counters) : k.levels < maxNesting + maxArrowNesting + 2 := by
  unfold Counters.levels
  omega

/-- The declarations of a program are tracked. -/
theorem track_within (hbound : enough T.tokens ≤ bound) :
    (Calls.within bound).Track (maxNesting + maxArrowNesting + 2) Parse.grammar :=
  Calls.track_upTo bound (by unfold enough at hbound; omega)

theorem tracks_declarations (hbound : enough T.tokens ≤ bound) :
    Tracks (maxNesting + maxArrowNesting + 2) bound .any
      (manyUntil bound atEnd (Calls.within bound).declaration)
      (Parse.budget >>= fun tokens =>
        Parse.manyUntil Parse.atEnd Parse.grammar.declaration tokens []) := by
  refine Tracks.manyUntil Tracks.atEnd fun U τ es hτ hmore => ?_
  have hdeclaration := (track_within hbound).declaration
  rw [Calls.within, Calls.turns_upTo] at hdeclaration
  refine (hdeclaration U τ es hτ).strict fun hlast => ?_
  obtain ⟨υ, hυ⟩ := hmore
  injection hυ with hkind hυ
  subst hυ
  have hinside : υ.current < U.tokens.length := Nat.lt_of_succ_le (Nat.le_of_eq hlast)
  simp [(Setting.kind_tokenAt_iff hinside).mpr hlast] at hkind

/-- Where reading a program begins. -/
theorem ready_start (hbound : enough T.tokens ≤ bound) :
    Ready T (maxNesting + maxArrowNesting + 2) bound .start [] where
  inside := by
    have := List.length_pos_iff.mpr T.ends.ne_nil
    exact this
  errors := rfl
  levels := levels_lt _
  turns := by
    unfold enough at hbound
    simp only [State.start]
    omega

/-- How a descent into a program and reading the program end: with the errors that count, and with
statements if there are none. -/
theorem program_agrees (hbound : enough T.tokens ≤ bound) :
    (∃ statements σ t, Parse.program (T.context .outermost) (T.cursor 0 []) = .ok statements t ∧
      σ.errors = t.errors.filter T.counts ∧
      program bound T .start =
        if σ.errors.isEmpty then .returned statements σ else .aborted σ) ∨
    ∃ errors σ, Parse.program (T.context .outermost) (T.cursor 0 []) = .abort errors ∧
      σ.errors = errors.filter T.counts ∧ σ.errors ≠ [] ∧ program bound T .start = .aborted σ := by
  have hagree : Agree T .any .start (manyUntil bound atEnd (Calls.within bound).declaration T .start)
      ((Parse.budget >>= fun tokens =>
        Parse.manyUntil Parse.atEnd Parse.grammar.declaration tokens []) (T.context .outermost)
        (T.cursor 0 [])) :=
    tracks_declarations hbound T .start [] (ready_start hbound)
  have hcontains : Contains (manyUntil bound atEnd (Calls.within bound).declaration) :=
    .repeatWhile (.of_returns fun _ _ => ⟨_, _, rfl⟩)
      (fun _ => (contains_declaration bound bound).bind fun _ => .pure _) bound []
  have hreader : Parse.program = (Parse.budget >>= fun tokens =>
      Parse.manyUntil Parse.atEnd Parse.grammar.declaration tokens []) >>= fun read =>
        return read.filterMap id := (bind_assoc ..).symm
  rw [program, hreader, bind_apply, Parse.bind_apply]
  generalize (Parse.budget >>= fun tokens =>
    Parse.manyUntil Parse.atEnd Parse.grammar.declaration tokens []) (T.context .outermost)
      (T.cursor 0 []) = r at hagree ⊢
  generalize hm : manyUntil bound atEnd (Calls.within bound).declaration T .start = o at hagree ⊢
  cases hagree with
  | raised => exact absurd hm (hcontains T .start _ _)
  | aborted herrors hne => exact .inr ⟨_, _, rfl, herrors, hne, rfl⟩
  | returned h => exact .inl ⟨_, _, _, rfl, h.errors, rfl⟩

/-- The library reads the tokens from the first one on. -/
theorem ofTokens_eq (T : Setting) :
    Program.ofTokens T.tokens T.mode.collectAll =
      match Parse.program (T.context .outermost) (T.cursor 0 []) with
      | .ok statements s => if s.errors.isEmpty then .ok ⟨statements⟩ else .error s.errors
      | .fail e s => .error (s.errors ++ [e])
      | .abort errors => .error errors := by
  have hcursor : (⟨T.tokens.headD T.final, T.tokens.dropLast, T.final, []⟩ : Parse.Cursor)
      = T.cursor 0 [] := by
    simp [Setting.cursor, Setting.tokenAt, List.headD_eq_head?_getD, List.head?_eq_getElem?]
  unfold Program.ofTokens
  have hlast : T.tokens.getLast? = some T.final := List.getLast?_eq_some_getLast T.ends.ne_nil
  rw [hlast]
  simp only [hcursor]
  rfl

end Programs

end Lox.Descent
