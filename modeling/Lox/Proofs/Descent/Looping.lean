import Lox.Proofs.Descent.Tracking

/-!
# Loops and recovery end

A loop of a descent takes no more turns than there are tokens, since each turn that may be followed by
another takes one; so it is tracked by the bounded repetition of the reader. After an error the
descent goes on at the next statement boundary, and it takes a token to get there.
-/

namespace Lox.Descent

namespace Tracks

variable {levels turns : Nat} {pace : Pace}

section Loops

variable {σ ρ : Type}
variable {test : Descent Bool} {test' : Parse Bool}
variable {turn : σ → Descent (σ × Bool)} {turn' : σ → Parse (σ × Bool)} {result : σ → ρ}

/-- A turn takes a token wherever the test holds. -/
def TakesTurns
    (levels turns : Nat)
    (test : Descent Bool)
    (turn : σ → Descent (σ × Bool))
    (turn' : σ → Parse (σ × Bool)) :
    Prop :=
  ∀ (s : σ) (T : Setting) (τ : State) (es : List ParseError), Ready T levels turns τ es →
    (∃ υ, test T υ = .returned true τ) →
    Agree T .strict τ (turn s T τ) (turn' s (T.context τ.counters) (T.cursor τ.current es))

theorem takesTurns (hturn : ∀ s, Tracks levels turns .strict (turn s) (turn' s)) :
    TakesTurns levels turns test turn turn' :=
  fun s T τ es hτ _ => hturn s T τ es hτ

/-- Enough turns are as many as there are tokens left. -/
theorem repeatWhile_of_le
    (htest : Tracks levels turns .any test test')
    (hturn : TakesTurns levels turns test turn turn')
    {T : Setting}
    (n : Nat)
    (tokens : List Token)
    (s : σ)
    (τ : State)
    (es : List ParseError)
    (hτ : Ready T levels turns τ es)
    (hn : T.tokens.length ≤ τ.current + n)
    (htokens : T.tokens.length ≤ τ.current + tokens.length) :
    Agree T .any τ (Descent.repeatWhile test turn result n s T τ)
      (Parse.repeatWhile test' turn' result tokens s (T.context τ.counters)
        (T.cursor τ.current es)) := by
  have hinside := hτ.inside
  induction n generalizing tokens s τ es with
  | zero => omega
  | succ n ih =>
      cases tokens with
      | nil => simp at htokens; omega
      | cons token tokens =>
          unfold Descent.repeatWhile Parse.repeatWhile
          refine (htest T τ es hτ).bind (y := .any) Pace.Holds.trans_left fun holds υ t hυ h => ?_
          cases holds with
          | false => exact (pure _).after h hτ
          | true =>
              have hstrict := hturn s T υ t.errors (h.ready hτ) ⟨_, hυ⟩
              rw [← h.cursor, h.counters] at hstrict
              refine hstrict.bind (y := .any) (fun hij hjk => Nat.le_trans hij.le hjk)
                fun next φ u _ h' => ?_
              have hreach : Reached T .strict τ φ u :=
                h.trans h' fun hij hjk => hjk.trans_right hij
              have hpast : τ.current < φ.current := hreach.pace
              split
              · have hrest := ih tokens next.1 φ u.errors (hreach.ready hτ) (by omega)
                  (by rw [List.length_cons] at htokens; omega) hreach.inside
                rwa [← hreach.cursor, hreach.counters] at hrest
              · exact (pure _).after hreach hτ

/-- A loop whose turns take tokens ends. -/
theorem repeatWhile
    (htest : Tracks levels turns .any test test')
    (hturn : TakesTurns levels turns test turn turn')
    (s : σ) :
    Tracks levels turns .any (Descent.repeatWhile test turn result turns s)
      (Parse.budget >>= fun tokens => Parse.repeatWhile test' turn' result tokens s) := by
  intro T τ es hτ
  refine repeatWhile_of_le htest hturn turns _ s τ es hτ hτ.turns ?_
  have hinside := hτ.inside
  rw [List.length_cons, Setting.length_rest_cursor]
  omega

end Loops

section Items

variable {α : Type} {item : Descent α} {item' : Parse α}

theorem manyUntil
    {stop : Descent Bool} {stop' : Parse Bool}
    (hstop : Tracks levels turns .any stop stop')
    (hitem : ∀ (T : Setting) (τ : State) (es : List ParseError), Ready T levels turns τ es →
      (∃ υ, stop T υ = .returned false τ) →
      Agree T .strict τ (item T τ) (item' (T.context τ.counters) (T.cursor τ.current es))) :
    Tracks levels turns .any (Descent.manyUntil turns stop item)
      (Parse.budget >>= fun tokens => Parse.manyUntil stop' item' tokens []) := by
  simp only [Parse.manyUntil_eq]
  refine repeatWhile (first hstop fun _ => pure _) (fun done T τ es hτ hholds => ?_) []
  obtain ⟨υ, hυ⟩ := hholds
  obtain ⟨stopped, φ, hstopped, hφ⟩ := bind_eq_returned.mp hυ
  refine (hitem T τ es hτ ⟨υ, ?_⟩).bind (y := .any) Pace.Holds.trans_left fun a φ t _ h =>
    (pure _).after h hτ
  cases stopped with
  | true => cases hφ
  | false =>
      cases hφ
      exact hstopped

theorem manyUntil_of_strict
    {stop : Descent Bool} {stop' : Parse Bool}
    (hstop : Tracks levels turns .any stop stop')
    (hitem : Tracks levels turns .strict item item') :
    Tracks levels turns .any (Descent.manyUntil turns stop item)
      (Parse.budget >>= fun tokens => Parse.manyUntil stop' item' tokens []) :=
  manyUntil hstop fun T τ es hτ _ => hitem T τ es hτ

theorem commaTurn (hitem : Tracks levels turns .strict item item') (done : List α) :
    Tracks levels turns .strict (commaTurn item done) (Parse.commaTurn item' done) :=
  first hitem fun _ => first (accept .comma) fun _ => pure _

theorem listBefore (close : TokenKind) (hitem : Tracks levels turns .strict item item') :
    Tracks levels turns .any (Descent.listBefore turns close item)
      (Parse.budget >>= fun tokens => Parse.listBefore close item' tokens []) := by
  simp only [Parse.listBefore_eq]
  exact repeatWhile (first (check close) fun _ => pure _) (takesTurns (commaTurn hitem)) []

theorem countedTurn
    (what : Counted)
    (hitem : Tracks levels turns .strict item item')
    (done : List α) :
    Tracks levels turns .strict (countedTurn what item done)
      (Parse.countedTurn what item' done) := by
  unfold Descent.countedTurn Parse.countedTurn
  split
  · exact next peekToken fun token => next (report rfl) fun _ => commaTurn hitem done
  · exact commaTurn hitem done

theorem parenthesised (what : Counted) (hitem : Tracks levels turns .strict item item') :
    Tracks levels turns .any (Descent.parenthesised turns what item)
      (Parse.parenthesised what item') := by
  refine next (check .rightParen) fun closed => ?_
  cases closed with
  | true => exact pure _
  | false =>
      simp only [Parse.countedList_eq]
      exact repeatWhile (pure _) (takesTurns (countedTurn what hitem)) []

theorem parameters : Tracks levels turns .any (Descent.parameters turns) Parse.parameters :=
  parenthesised .parameters (first (require .identifier _) fun _ => pure _)

end Items

end Tracks

section Boundaries

/-- Is it the token with this index at which reading may go on after an error? It is the last one,
begins a statement or follows the end of one. -/
def Setting.Boundary (T : Setting) (i : Nat) : Prop :=
  T.Last i ∨ Parse.endsStatement (T.tokenAt (i - 1)).kind = true ∨
    Parse.startsStatement (T.tokenAt i).kind = true

/-- The first boundary from the token `i` on is the token `j`. -/
structure Setting.FirstBoundary (T : Setting) (i j : Nat) : Prop where
  le : i ≤ j
  inside : j < T.tokens.length
  boundary : T.Boundary j
  least : ∀ k, i ≤ k → k < j → ¬T.Boundary k

variable {T : Setting} {i j : Nat} {es : List ParseError}

theorem Setting.FirstBoundary.here (h : i < T.tokens.length) (hi : T.Boundary i) :
    T.FirstBoundary i i where
  le := Nat.le_refl i
  inside := h
  boundary := hi
  least k hik hki := by omega

theorem Setting.FirstBoundary.later (h : T.FirstBoundary (i + 1) j) (hi : ¬T.Boundary i) :
    T.FirstBoundary i j where
  le := Nat.le_of_succ_le h.le
  inside := h.inside
  boundary := h.boundary
  least k hik hkj := by
    rcases Nat.eq_or_lt_of_le hik with rfl | hlt
    · exact hi
    · exact h.least k hlt hkj

variable (es) in
/-- Passing over tokens ends at the first boundary. -/
theorem skipToBoundary_cursor (h : i < T.tokens.length) :
    ∃ j, T.FirstBoundary i j ∧
      Parse.skipToBoundary (T.tokenAt (i - 1)) (T.cursor i es).rest =
        (T.tokenAt (j - 1), (T.cursor j es).rest) := by
  induction hn : T.tokens.length - i generalizing i with
  | zero => omega
  | succ n ih =>
      by_cases hlast : T.Last i
      · refine ⟨i, .here h (.inl hlast), ?_⟩
        rw [Setting.rest_cursor_of_last hlast]
        rfl
      · rw [Setting.rest_cursor h hlast, Parse.skipToBoundary]
        split
        · next hboundary =>
            rw [Bool.or_eq_true] at hboundary
            exact ⟨i, .here h (.inr hboundary), by rw [Setting.rest_cursor h hlast]⟩
        · next hinner =>
            rw [Bool.or_eq_true] at hinner
            obtain ⟨j, hj, hskip⟩ := ih (Setting.lt_of_not_last h hlast) (by omega)
            exact ⟨j, hj.later (not_or.mpr ⟨hlast, hinner⟩), hskip⟩

variable (es) in
/-- Reading goes on at the first boundary behind the token at the cursor, unless that is the last
one. -/
theorem synchronize_cursor (h : i < T.tokens.length) :
    ∃ j, T.FirstBoundary (if T.Last i then i else i + 1) j ∧
      (T.cursor i es).synchronize = T.cursor j es := by
  have hskipped {k : Nat} (hk : k < T.tokens.length)
      (hadvance : (T.cursor i es).advance = T.cursor k es) :
      ∃ j, T.FirstBoundary k j ∧ (T.cursor i es).synchronize = T.cursor j es := by
    obtain ⟨j, hj, hskip⟩ := skipToBoundary_cursor es hk
    refine ⟨j, hj, ?_⟩
    have hprevious : (T.cursor k es).previous = T.tokenAt (k - 1) := rfl
    simp only [Parse.Cursor.synchronize, hadvance, hprevious, hskip]
    rfl
  split
  · next hlast => exact hskipped h (Setting.advance_cursor_of_last hlast)
  · next hlast =>
      exact hskipped (Setting.lt_of_not_last h hlast) (Setting.advance_cursor h hlast)

theorem withinStatement_apply {σ : State} (h : σ.current < T.tokens.length) :
    ∃ inner : Bool, (inner = true ↔ ¬T.Boundary σ.current) ∧
      withinStatement T σ = .returned inner σ := by
  by_cases hlast : T.Last σ.current
  · refine ⟨false, by simp [Setting.Boundary, hlast], ?_⟩
    simp only [withinStatement, bind_apply, atEnd, (Setting.kind_tokenAt_iff h).mpr hlast, beq_self_eq_true]
    rfl
  · refine ⟨!(Parse.endsStatement (T.tokenAt (σ.current - 1)).kind ||
      Parse.startsStatement (T.tokenAt σ.current).kind), ?_, ?_⟩
    · simp [Setting.Boundary, hlast]
    · have hkind := mt (Setting.kind_tokenAt_iff h).mp hlast
      simp only [withinStatement, bind_apply, atEnd, beq_eq_false_iff_ne.mpr hkind]
      rfl

/-- The loop that passes over tokens ends at the first boundary, too. -/
theorem repeatWhile_withinStatement
    {n : Nat} {σ : State}
    (hj : T.FirstBoundary σ.current j)
    (hn : T.tokens.length ≤ σ.current + n) :
    repeatWhile withinStatement (fun _ => do
      let _ ← advance
      return ((), true)) id n () T σ = .returned () { σ with current := j } := by
  have hinside := Nat.lt_of_le_of_lt hj.le hj.inside
  induction n generalizing σ with
  | zero => omega
  | succ n ih =>
      obtain ⟨inner, hinner, hwithin⟩ := withinStatement_apply hinside
      rw [repeatWhile, bind_apply, hwithin]
      cases inner with
      | false =>
          have hhere : σ.current = j := by
            rcases Nat.eq_or_lt_of_le hj.le with heq | hlt
            · exact heq
            · exact absurd (hj.least _ (Nat.le_refl _) hlt) (by simpa using hinner)
          rw [← hhere]
          rfl
      | true =>
          have hnot := hinner.mp rfl
          have hlast : ¬T.Last σ.current := fun hlast => hnot (.inl hlast)
          have hpast : σ.current < j :=
            Nat.lt_of_le_of_ne hj.le fun heq => hnot (heq ▸ hj.boundary)
          have hrest := ih (σ := { σ with current := σ.current + 1 })
            ⟨hpast, hj.inside, hj.boundary, fun k hk => hj.least k (Nat.le_of_succ_le hk)⟩
            (by simp only; omega) (Nat.lt_of_le_of_lt hpast hj.inside)
          simp only [if_true, bind_apply, Tracks.advance_of_not_last hinside hlast]
          exact hrest

end Boundaries

namespace Tracks

section Recovery

variable {levels turns : Nat} {pace : Pace}

/-- Go on at the next statement boundary after at least one token. -/
def resynchronize : Parse Unit :=
  fun _ s => .ok () s.synchronize

theorem synchronize : Tracks levels turns .onward (synchronize turns) resynchronize := by
  intro T σ es hσ
  obtain ⟨j, hj, hreader⟩ := synchronize_cursor es hσ.inside
  change Agree T .onward σ _ (.ok () (T.cursor σ.current es).synchronize)
  rw [hreader, Descent.synchronize, bind_apply]
  split at hj
  · next hlast =>
      rw [advance_of_last hσ.inside hlast]
      simp only
      rw [repeatWhile_withinStatement hj hσ.turns]
      exact .returned ⟨rfl, hj.inside, hσ.errors, ⟨hj.le, .inl hlast⟩, rfl⟩
  · next hlast =>
      rw [advance_of_not_last hσ.inside hlast]
      simp only
      have hturns : T.tokens.length ≤ σ.current + 1 + turns := by
        have := hσ.turns
        omega
      rw [repeatWhile_withinStatement (σ := { σ with current := σ.current + 1 }) hj hturns]
      exact .returned ⟨rfl, hj.inside, hσ.errors, ⟨Nat.le_of_succ_le hj.le, .inr hj.le⟩, rfl⟩

/-- A statement or an error takes a token. -/
theorem recovering
    {m : Descent Stmt} {p : Parse Stmt}
    (hp : Tracks levels turns .strict m p) :
    Tracks levels turns .onward (recovering turns m) (Parse.recovering p) := by
  intro T σ es hσ
  have hend := hp T σ es hσ
  unfold Descent.recovering Parse.recovering
  generalize m T σ = o, p (T.context σ.counters) (T.cursor σ.current es) = r at hend ⊢
  cases hend with
  | aborted herrors hne => exact .aborted herrors hne
  | returned h => exact .returned (h.slower fun (h : Pace.strict.Holds _ _ _) => ⟨h.le, .inr h⟩)
  | @raised e τ t htoken hfault h =>
      have hrecovery : Tracks levels turns .onward
          (do Descent.report e; Descent.synchronize turns; return (none : Option Stmt))
          (do Parse.report e; resynchronize; return none) :=
        next (report hfault) fun _ => first synchronize fun _ => pure _
      have hafter := (hrecovery.after h hσ).behind h
      rw [Parse.bind_apply] at hafter
      simp only
      cases hreport : Parse.report e (T.context σ.counters) t <;> rw [hreport] at hafter <;>
        exact hafter

end Recovery

end Tracks

end Lox.Descent
