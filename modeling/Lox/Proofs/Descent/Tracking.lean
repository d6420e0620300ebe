import Lox.Proofs.Descent.Syntax
import Lox.Proofs.Tree.Misplaced

/-!
# Descents track readers

A descent tracks a reader of `Lox.Parse` if both end in the same way wherever they begin: at the same
token, with the same result or error, with the errors that count, and with the counters as they were
before. The rules follow the ways in which readers are built; a loop is tracked because each of its
turns takes a token, so the turns that are given are enough.
-/

namespace Lox.Descent

section Places

/-- Does the error count? -/
def Setting.counts (T : Setting) (e : ParseError) : Bool :=
  T.mode.reportsMisplaced || !e.fault.isMisplaced

/-- The context that the counters describe. -/
def Setting.context (T : Setting) (k : Counters) : Parse.Context where
  collectAll := T.mode.collectAll
  inFunction := k.functionDepth != 0
  inLoop := k.loopDepth != 0
  classHasSuperclass := k.classStack.head?
  depth := k.depth
  arrows := k.arrows

/-- The cursor at the token with this index. -/
def Setting.cursor (T : Setting) (index : Nat) (errors : List ParseError) : Parse.Cursor where
  previous := T.tokenAt (index - 1)
  rest := T.tokens.dropLast.drop index
  final := T.final
  errors := errors

/-- Is it the last token that has this index? -/
def Setting.Last (T : Setting) (index : Nat) : Prop :=
  index + 1 = T.tokens.length

instance (T : Setting) (index : Nat) : Decidable (T.Last index) :=
  inferInstanceAs (Decidable (_ = _))

/-- How many constructs may still be nested in each other. -/
def Counters.levels (k : Counters) : Nat :=
  (maxNesting - k.depth) + (maxArrowNesting - k.arrows)

variable {T : Setting} {i : Nat} {es : List ParseError}

theorem Setting.tokenAt_of_lt (h : i < T.tokens.length) : T.tokenAt i = T.tokens[i] := by
  simp [tokenAt, h]

/-- The end of the input is the token with the last index. -/
theorem Setting.kind_tokenAt_iff (h : i < T.tokens.length) :
    (T.tokenAt i).kind = .endOfInput ↔ T.Last i := by
  obtain ⟨init, final, htokens, hfinal, hinit⟩ := T.ends.eq_concat
  rw [tokenAt_of_lt h, Last]
  simp only [htokens, List.length_append, List.length_singleton] at h ⊢
  by_cases hi : i < init.length
  · rw [List.getElem_append_left hi]
    exact ⟨fun hkind => absurd hkind (hinit _ (List.getElem_mem hi)), fun hend => by omega⟩
  · obtain rfl : i = init.length := by omega
    simpa using hfinal

theorem Setting.lt_of_not_last (h : i < T.tokens.length) (hlast : ¬T.Last i) :
    i + 1 < T.tokens.length := by
  unfold Last at hlast
  omega

theorem Setting.rest_cursor_of_last (h : T.Last i) : (T.cursor i es).rest = [] := by
  simp only [cursor, Last] at h ⊢
  rw [List.drop_eq_nil_iff, List.length_dropLast]
  omega

theorem Setting.rest_cursor (h : i < T.tokens.length) (hlast : ¬T.Last i) :
    (T.cursor i es).rest = T.tokenAt i :: (T.cursor (i + 1) es).rest := by
  have hi : i < T.tokens.dropLast.length := by
    rw [List.length_dropLast]
    unfold Last at hlast
    omega
  simp only [cursor]
  rw [List.drop_eq_getElem_cons hi, List.getElem_dropLast, tokenAt_of_lt h]

theorem Setting.length_rest_cursor : (T.cursor i es).rest.length = T.tokens.length - 1 - i := by
  simp [cursor]

theorem Setting.rest_cursor_eq_nil_iff (h : i < T.tokens.length) :
    (T.cursor i es).rest = [] ↔ T.Last i := by
  refine ⟨fun hrest => Decidable.byContradiction fun hlast => ?_, rest_cursor_of_last⟩
  rw [rest_cursor h hlast] at hrest
  cases hrest

@[simp] theorem Setting.current_cursor (h : i < T.tokens.length) :
    (T.cursor i es).current = T.tokenAt i := by
  unfold Parse.Cursor.current
  by_cases hlast : T.Last i
  · rw [rest_cursor_of_last hlast, List.headD_nil, tokenAt_of_lt h]
    simp only [cursor, final, List.getLast_eq_getElem]
    congr 1
    unfold Last at hlast
    omega
  · rw [rest_cursor h hlast, List.headD_cons]

theorem Setting.advance_cursor_of_last (h : T.Last i) : (T.cursor i es).advance = T.cursor i es := by
  unfold Parse.Cursor.advance
  rw [rest_cursor_of_last h]

theorem Setting.advance_cursor (h : i < T.tokens.length) (hlast : ¬T.Last i) :
    (T.cursor i es).advance = T.cursor (i + 1) es := by
  unfold Parse.Cursor.advance
  rw [rest_cursor h hlast]
  rfl

@[simp] theorem Setting.record_cursor (e : ParseError) :
    (T.cursor i es).record e = T.cursor i (es ++ [e]) :=
  rfl

end Places

section Relation

variable {α : Type}

/-- How far a reader gets on: not back, on by a token unless the input is at its end, or on by a
token. -/
inductive Pace
  | any | onward | strict

/-- Is this the pace from the one index to the other? -/
def Pace.Holds (T : Setting) : Pace → Nat → Nat → Prop
  | any, i, j => i ≤ j
  | onward, i, j => i ≤ j ∧ (T.Last i ∨ i < j)
  | strict, i, j => i < j

/-- Everything that is asked of the state in which a descent begins: it is at a token, it has
recorded the errors that count, and what was given suffices for the nesting and the tokens that
remain. -/
structure Ready (T : Setting) (levels turns : Nat) (σ : State) (es : List ParseError) : Prop where
  inside : σ.current < T.tokens.length
  errors : σ.errors = es.filter T.counts
  levels : σ.counters.levels < levels
  turns : T.tokens.length ≤ σ.current + turns

/-- What holds of the state `τ` that a descent has reached from the state `σ`, if a reader has reached
the cursor `t`. -/
structure Reached (T : Setting) (pace : Pace) (σ τ : State) (t : Parse.Cursor) : Prop where
  cursor : t = T.cursor τ.current t.errors
  inside : τ.current < T.tokens.length
  errors : τ.errors = t.errors.filter T.counts
  pace : pace.Holds T σ.current τ.current
  counters : τ.counters = σ.counters

/-- The descent that began in the state `σ` ends as the reader does. -/
inductive Agree (T : Setting) (pace : Pace) (σ : State) : Outcome α → Parsed α → Prop
  | returned {a : α} {τ : State} {t : Parse.Cursor} :
      Reached T pace σ τ t → Agree T pace σ (.returned a τ) (.ok a t)
  | raised {e : ParseError} {τ : State} {t : Parse.Cursor} :
      e.token = t.current → e.fault.isMisplaced = false → Reached T .any σ τ t →
      Agree T pace σ (.raised e τ) (.fail e t)
  | aborted {τ : State} {es : List ParseError} :
      τ.errors = es.filter T.counts → τ.errors ≠ [] → Agree T pace σ (.aborted τ) (.abort es)

/-- Given so many levels of nesting and turns, the descent ends as the reader does. -/
def Tracks (levels turns : Nat) (pace : Pace) (m : Descent α) (p : Parse α) : Prop :=
  ∀ (T : Setting) (σ : State) (es : List ParseError), Ready T levels turns σ es →
    Agree T pace σ (m T σ) (p (T.context σ.counters) (T.cursor σ.current es))

end Relation

section Paces

variable {T : Setting} {i j k : Nat} {pace : Pace}

theorem Pace.Holds.le (h : pace.Holds T i j) : i ≤ j := by
  cases pace with
  | any => exact h
  | onward => exact h.1
  | strict => exact Nat.le_of_lt h

theorem Pace.Holds.trans_left (h : pace.Holds T i j) (hjk : j ≤ k) : pace.Holds T i k := by
  cases pace with
  | any => exact Nat.le_trans h hjk
  | onward => exact ⟨Nat.le_trans h.1 hjk, h.2.imp_right fun hlt => Nat.lt_of_lt_of_le hlt hjk⟩
  | strict => exact Nat.lt_of_lt_of_le h hjk

theorem Pace.Holds.trans_right (hij : i ≤ j) (h : pace.Holds T j k) : pace.Holds T i k := by
  cases pace with
  | any => exact Nat.le_trans hij h
  | strict => exact Nat.lt_of_le_of_lt hij h
  | onward =>
      refine ⟨Nat.le_trans hij h.1, ?_⟩
      rcases h.2 with hlast | hlt
      · rcases Nat.eq_or_lt_of_le hij with rfl | hlt
        · exact .inl hlast
        · exact .inr (Nat.lt_of_lt_of_le hlt h.1)
      · exact .inr (Nat.lt_of_le_of_lt hij hlt)

end Paces

section States

variable {T : Setting} {levels turns : Nat} {pace : Pace} {σ τ υ : State}
variable {es : List ParseError} {t u : Parse.Cursor}

theorem Ready.reached (h : Ready T levels turns σ es) :
    Reached T .any σ σ (T.cursor σ.current es) where
  cursor := rfl
  inside := h.inside
  errors := h.errors
  pace := Nat.le_refl _
  counters := rfl

/-- What suffices at the beginning suffices later. -/
theorem Reached.ready (h : Reached T pace σ τ t) (hσ : Ready T levels turns σ es) :
    Ready T levels turns τ t.errors where
  inside := h.inside
  errors := h.errors
  levels := by
    rw [h.counters]
    exact hσ.levels
  turns := Nat.le_trans hσ.turns (Nat.add_le_add_right h.pace.le _)

theorem Reached.trans
    {x y z : Pace}
    (h : Reached T x σ τ t)
    (h' : Reached T y τ υ u)
    (hpace : ∀ {T i j k}, x.Holds T i j → y.Holds T j k → z.Holds T i k) :
    Reached T z σ υ u where
  cursor := h'.cursor
  inside := h'.inside
  errors := h'.errors
  pace := hpace h.pace h'.pace
  counters := h'.counters.trans h.counters

theorem Reached.slower
    {x y : Pace}
    (h : Reached T x σ τ t)
    (hpace : x.Holds T σ.current τ.current → y.Holds T σ.current τ.current) :
    Reached T y σ τ t where
  cursor := h.cursor
  inside := h.inside
  errors := h.errors
  pace := hpace h.pace
  counters := h.counters

theorem Reached.any (h : Reached T pace σ τ t) : Reached T .any σ τ t :=
  h.slower Pace.Holds.le

end States

section Ends

variable {α : Type} {T : Setting} {σ : State} {pace : Pace} {o : Outcome α} {r : Parsed α}

theorem Agree.slower
    {x : Pace}
    (h : Agree T pace σ o r)
    (hpace : ∀ {j}, pace.Holds T σ.current j → x.Holds T σ.current j) :
    Agree T x σ o r := by
  cases h with
  | returned h => exact .returned (h.slower hpace)
  | raised htoken hfault h => exact .raised htoken hfault h
  | aborted herrors hne => exact .aborted herrors hne

/-- Before the end of the input there is a token to take. -/
theorem Agree.strict (h : Agree T .onward σ o r) (hlast : ¬T.Last σ.current) :
    Agree T .strict σ o r :=
  h.slower fun hpace => hpace.2.resolve_left hlast

/-- What is read from a state that has been reached is read from the one before. -/
theorem Agree.behind
    {τ : State} {t : Parse.Cursor}
    (h : Agree T pace τ o r)
    (hτ : Reached T .any σ τ t) :
    Agree T pace σ o r := by
  cases h with
  | returned h => exact .returned (hτ.trans h fun hij hjk => hjk.trans_right hij)
  | raised htoken hfault h => exact .raised htoken hfault (hτ.trans h Pace.Holds.trans_left)
  | aborted herrors hne => exact .aborted herrors hne

/-- One reader after another. -/
theorem Agree.bind
    {β : Type} {x y z : Pace}
    {m : Descent α} {p : Parse α} {f : α → Descent β} {q : α → Parse β}
    {c : Parse.Context} {s : Parse.Cursor}
    (hpace : ∀ {T i j k}, x.Holds T i j → y.Holds T j k → z.Holds T i k)
    (h : Agree T x σ (m T σ) (p c s))
    (hf : ∀ a τ t, m T σ = .returned a τ → Reached T x σ τ t → Agree T y τ (f a T τ) (q a c t)) :
    Agree T z σ ((m >>= f) T σ) ((p >>= q) c s) := by
  rw [bind_apply, Parse.bind_apply]
  generalize m T σ = o, p c s = r at h hf ⊢
  cases h with
  | raised htoken hfault h => exact .raised htoken hfault h
  | aborted herrors hne => exact .aborted herrors hne
  | @returned a τ t h =>
      have hsecond := hf a τ t rfl h
      simp only
      generalize f a T τ = o, q a c t = r at hsecond ⊢
      cases hsecond with
      | returned h' => exact .returned (h.trans h' hpace)
      | raised htoken hfault h' => exact .raised htoken hfault (h.any.trans h' Pace.Holds.trans_left)
      | aborted herrors hne => exact .aborted herrors hne

/-- What is tracked from every state is tracked from one that has been reached. -/
theorem Tracks.after
    {x : Pace} {levels turns : Nat}
    {m : Descent α} {p : Parse α}
    {τ : State} {t : Parse.Cursor} {es : List ParseError}
    (hp : Tracks levels turns pace m p)
    (h : Reached T x σ τ t)
    (hσ : Ready T levels turns σ es) :
    Agree T pace τ (m T τ) (p (T.context σ.counters) t) := by
  have hend := hp T τ t.errors (h.ready hσ)
  rwa [← h.cursor, h.counters] at hend

end Ends

namespace Tracks

variable {α β : Type} {levels turns : Nat} {pace : Pace}
variable {m : Descent α} {p : Parse α} {f : α → Descent β} {q : α → Parse β}

section Rules

theorem pure (a : α) : Tracks levels turns .any (pure a) (pure a) :=
  fun _ _ _ hσ => .returned hσ.reached

/-- The paces of two readers add up. -/
theorem bind
    {x y z : Pace}
    (hpace : ∀ {T i j k}, x.Holds T i j → y.Holds T j k → z.Holds T i k)
    (hp : Tracks levels turns x m p)
    (hf : ∀ a, Tracks levels turns y (f a) (q a)) :
    Tracks levels turns z (m >>= f) (p >>= q) :=
  fun T σ es hσ => (hp T σ es hσ).bind hpace fun a _ _ _ h => (hf a).after h hσ

/-- The first reader sets the pace. -/
theorem first
    (hp : Tracks levels turns pace m p)
    (hf : ∀ a, Tracks levels turns .any (f a) (q a)) :
    Tracks levels turns pace (m >>= f) (p >>= q) :=
  bind Pace.Holds.trans_left hp hf

/-- The second reader sets the pace. -/
theorem next
    (hp : Tracks levels turns .any m p)
    (hf : ∀ a, Tracks levels turns pace (f a) (q a)) :
    Tracks levels turns pace (m >>= f) (p >>= q) :=
  bind (fun hij h => h.trans_right hij) hp hf

/-- A repetition and what follows it. -/
theorem bounded
    {r : List Token → Parse α}
    (hp : Tracks levels turns .any m (Parse.budget >>= r))
    (hf : ∀ a, Tracks levels turns pace (f a) (q a)) :
    Tracks levels turns pace (m >>= f)
      (Parse.budget >>= fun tokens => r tokens >>= q) := by
  rw [← bind_assoc]
  exact next hp hf

/-- Less may be said of the pace. -/
theorem slower
    {x : Pace}
    (hpace : ∀ {T i j}, pace.Holds T i j → x.Holds T i j)
    (hp : Tracks levels turns pace m p) :
    Tracks levels turns x m p :=
  fun T σ es hσ => (hp T σ es hσ).slower hpace

theorem any (hp : Tracks levels turns pace m p) : Tracks levels turns .any m p :=
  hp.slower Pace.Holds.le

theorem onward (hp : Tracks levels turns .strict m p) : Tracks levels turns .onward m p :=
  hp.slower fun (h : Pace.strict.Holds _ _ _) => ⟨h.le, .inr h⟩

theorem fewer {levels' : Nat} (hp : Tracks levels turns pace m p) (hlevels : levels' ≤ levels) :
    Tracks levels' turns pace m p :=
  fun T σ es hσ => hp T σ es
    ⟨hσ.inside, hσ.errors, Nat.lt_of_lt_of_le hσ.levels hlevels, hσ.turns⟩

end Rules

section Primitives

theorem previous : Tracks levels turns .any previous Parse.previous :=
  fun _ _ _ hσ => .returned hσ.reached

theorem spanFrom (start : Token) :
    Tracks levels turns .any (spanFrom start) (Parse.spanFrom start) :=
  first previous fun _ => pure _

theorem counters
    {f : Counters → Descent β} {q : Parse.Context → Parse β}
    (hf : ∀ (k : Counters) (T : Setting), Tracks levels turns pace (f k) (q (T.context k))) :
    Tracks levels turns pace (counters >>= f) (Parse.context >>= q) :=
  fun T σ es hσ => hf σ.counters T T σ es hσ

/-- The token at the cursor, for readers that take it unless it ends the input. -/
theorem peek
    {f : Token → Descent β} {q : Token → Parse β}
    (hf : ∀ t, t.kind ≠ .endOfInput → Tracks levels turns .onward (f t) (q t))
    (hend : ∀ t, t.kind = .endOfInput → Tracks levels turns .strict (f t) (q t)) :
    Tracks levels turns .strict (peek >>= f) (Parse.peek >>= q) := by
  intro T σ es hσ
  change Agree T .strict σ (f (T.tokenAt σ.current) T σ)
    (q (T.cursor σ.current es).current (T.context σ.counters) (T.cursor σ.current es))
  rw [Setting.current_cursor hσ.inside]
  by_cases hkind : (T.tokenAt σ.current).kind = .endOfInput
  · exact hend _ hkind T σ es hσ
  · exact (hf _ hkind T σ es hσ).strict (mt (Setting.kind_tokenAt_iff hσ.inside).mpr hkind)

theorem peekToken : Tracks levels turns .any Descent.peek Parse.peek := by
  intro T σ es hσ
  change Agree T .any σ (.returned (T.tokenAt σ.current) σ) (.ok (T.cursor σ.current es).current _)
  rw [Setting.current_cursor hσ.inside]
  exact .returned hσ.reached

theorem atEnd : Tracks levels turns .any atEnd Parse.atEnd := by
  intro T σ es hσ
  change Agree T .any σ (.returned ((T.tokenAt σ.current).kind == .endOfInput) σ)
    (.ok (T.cursor σ.current es).rest.isEmpty _)
  have hsame : ((T.tokenAt σ.current).kind == .endOfInput)
      = (T.cursor σ.current es).rest.isEmpty := by
    rw [Bool.eq_iff_iff, beq_iff_eq, List.isEmpty_iff, Setting.kind_tokenAt_iff hσ.inside,
      Setting.rest_cursor_eq_nil_iff hσ.inside]
  rw [hsame]
  exact .returned hσ.reached

/-- What a check finds at the cursor. -/
theorem check_apply
    {T : Setting} {σ : State}
    (es : List ParseError)
    (kind : TokenKind)
    (hσ : σ.current < T.tokens.length) :
    ∃ found : Bool, (found = true → ¬T.Last σ.current) ∧
      Descent.check kind T σ = .returned found σ ∧
      Parse.check kind (T.context σ.counters) (T.cursor σ.current es) =
        .ok found (T.cursor σ.current es) := by
  unfold Descent.check Parse.check
  by_cases hlast : T.Last σ.current
  · refine ⟨false, nofun, ?_, ?_⟩
    · simp [(Setting.kind_tokenAt_iff hσ).mpr hlast]
    · simp [Setting.rest_cursor_of_last hlast]
  · have hkind := mt (Setting.kind_tokenAt_iff hσ).mp hlast
    refine ⟨(T.tokenAt σ.current).kind == kind, fun _ => hlast, ?_, ?_⟩
    · simp [hkind]
    · simp [Setting.rest_cursor hσ hlast]

theorem check (kind : TokenKind) : Tracks levels turns .any (check kind) (Parse.check kind) := by
  intro T σ es hσ
  obtain ⟨found, -, hdescent, hreader⟩ := check_apply es kind hσ.inside
  rw [hdescent, hreader]
  exact .returned hσ.reached

/-- A choice by the kind of the token at the cursor, where the end of the input is of no kind. -/
theorem checkThen
    {f : Bool → Descent β} {q : Bool → Parse β}
    (kind : TokenKind)
    (htrue : Tracks levels turns .onward (f true) (q true))
    (hfalse : Tracks levels turns .strict (f false) (q false)) :
    Tracks levels turns .strict (Descent.check kind >>= f) (Parse.check kind >>= q) := by
  intro T σ es hσ
  obtain ⟨found, hlast, hdescent, hreader⟩ := check_apply es kind hσ.inside
  rw [bind_apply, Parse.bind_apply, hdescent, hreader]
  cases found with
  | true => exact (htrue T σ es hσ).strict (hlast rfl)
  | false => exact hfalse T σ es hσ

theorem advance_of_last
    {T : Setting} {σ : State}
    (hσ : σ.current < T.tokens.length)
    (hlast : T.Last σ.current) :
    Descent.advance T σ = .returned (T.tokenAt (σ.current - 1)) σ := by
  simp only [Descent.advance, (Setting.kind_tokenAt_iff hσ).mpr hlast]
  rfl

theorem advance_of_not_last
    {T : Setting} {σ : State}
    (hσ : σ.current < T.tokens.length)
    (hlast : ¬T.Last σ.current) :
    Descent.advance T σ
      = .returned (T.tokenAt σ.current) { σ with current := σ.current + 1 } := by
  have hkind := mt (Setting.kind_tokenAt_iff hσ).mp hlast
  simp only [Descent.advance, beq_eq_false_iff_ne.mpr hkind]
  rfl

theorem advance : Tracks levels turns .onward advance Parse.advance := by
  intro T σ es hσ
  change Agree T .onward σ _
    (.ok (T.cursor σ.current es).advance.previous (T.cursor σ.current es).advance)
  by_cases hlast : T.Last σ.current
  · rw [Setting.advance_cursor_of_last hlast, advance_of_last hσ.inside hlast]
    exact .returned (hσ.reached.slower fun _ => ⟨Nat.le_refl _, .inl hlast⟩)
  · rw [Setting.advance_cursor hσ.inside hlast, advance_of_not_last hσ.inside hlast]
    exact .returned ⟨rfl, Setting.lt_of_not_last hσ.inside hlast, hσ.errors,
      ⟨Nat.le_succ _, .inr (Nat.lt_succ_self _)⟩, rfl⟩

theorem accept (kind : TokenKind) : Tracks levels turns .any (accept kind) (Parse.accept kind) := by
  refine next (check kind) fun found => ?_
  cases found with
  | true => exact next advance.any fun _ => pure _
  | false => exact pure _

theorem fail
    {fault : ParseFault}
    (hfault : fault.isMisplaced = false) :
    Tracks levels turns pace (fail fault : Descent α) (Parse.fail fault) := by
  intro T σ es hσ
  change Agree T pace σ (.raised ⟨fault, T.tokenAt σ.current⟩ σ)
    (.fail ⟨fault, (T.cursor σ.current es).current⟩ (T.cursor σ.current es))
  rw [Setting.current_cursor hσ.inside]
  exact .raised (Setting.current_cursor hσ.inside).symm hfault hσ.reached

theorem consume (kind : TokenKind) (expected : String) (reason : Option String) :
    Tracks levels turns .strict (consume kind expected reason)
      (Parse.consume kind expected reason) :=
  checkThen kind advance (fail rfl)

theorem require (kind : TokenKind) (expected : String) :
    Tracks levels turns .strict (require kind expected) (Parse.require kind expected) :=
  consume kind expected none

theorem checkNext {kind : TokenKind} (hkind : kind ≠ .endOfInput) :
    Tracks levels turns .any (checkNext kind) (Parse.checkNext kind) := by
  intro T σ es hσ
  change Agree T .any σ (.returned _ σ) (.ok _ (T.cursor σ.current es))
  have hsame : ((T.tokens[σ.current + 1]?.map (·.kind)) == some kind)
      = (((T.cursor σ.current es).rest[1]?.map (·.kind)) == some kind) := by
    obtain ⟨init, final, htokens, hfinal, -⟩ := T.ends.eq_concat
    simp only [Setting.cursor, htokens, List.dropLast_concat, List.getElem?_drop,
      List.getElem?_append]
    split
    · rfl
    · next hi =>
        rw [List.getElem?_eq_none (Nat.le_of_not_lt hi)]
        cases hlist : [final][σ.current + 1 - init.length]? with
        | none => rfl
        | some t =>
            have ht : t = final := by simpa using List.mem_of_getElem? hlist
            simp [ht, hfinal, hkind.symm]
  rw [hsame]
  exact .returned hσ.reached

/-- An end of the input makes no arrow function. -/
theorem startsArrow_concat
    {final : Token}
    (hfinal : final.kind = .endOfInput)
    (expectsName : Bool)
    (tokens : List Token) :
    Parse.startsArrow expectsName (tokens ++ [final]) = Parse.startsArrow expectsName tokens := by
  induction tokens generalizing expectsName with
  | nil => simp [Parse.startsArrow, hfinal]
  | cons token rest ih =>
      simp only [List.cons_append, Parse.startsArrow, ih]
      cases rest with
      | nil => simp only [List.nil_append, List.head?_cons, Option.map_some, hfinal]; rfl
      | cons next rest => rfl

theorem startsArrow
    {f : Bool → Descent β} {q : Bool → Parse β}
    (hf : ∀ b, Tracks levels turns pace (f b) (q b)) :
    Tracks levels turns pace (startsArrow >>= f)
      (Parse.remaining >>= fun tokens => q (Parse.startsArrow true (tokens.drop 1))) := by
  intro T σ es hσ
  change Agree T pace σ (f (Parse.startsArrow true (T.tokens.drop (σ.current + 1))) T σ)
    (q (Parse.startsArrow true ((T.cursor σ.current es).rest.drop 1)) (T.context σ.counters)
      (T.cursor σ.current es))
  have hsame : Parse.startsArrow true (T.tokens.drop (σ.current + 1))
      = Parse.startsArrow true ((T.cursor σ.current es).rest.drop 1) := by
    have hinside := hσ.inside
    obtain ⟨init, final, htokens, hfinal, -⟩ := T.ends.eq_concat
    simp only [Setting.cursor, htokens, List.dropLast_concat, List.drop_drop, List.length_append,
      List.length_singleton] at hinside ⊢
    by_cases hi : σ.current + 1 ≤ init.length
    · rw [List.drop_append_of_le_length hi, startsArrow_concat hfinal]
    · rw [List.drop_eq_nil_of_le (by simp; omega), List.drop_eq_nil_of_le (by omega)]
  rw [hsame]
  exact hf _ T σ es hσ

end Primitives

section Errors

theorem report {e : ParseError} (he : e.fault.isMisplaced = false) :
    Tracks levels turns .any (report e) (Parse.report e) := by
  intro T σ es hσ
  have herrors : σ.errors ++ [e] = (es ++ [e]).filter T.counts := by
    simp [hσ.errors, Setting.counts, he]
  change Agree T .any σ (if T.mode.collectAll then _ else _) (if T.mode.collectAll then _ else _)
  split
  · exact .returned ⟨rfl, hσ.inside, herrors, Nat.le_refl _, rfl⟩
  · exact .aborted herrors (by simp [State.record])

/-- A misplaced construct that is no error is recorded by the reader only. -/
theorem reportIf (isMisplaced : Bool) (construct : Misplaced) (token : Token) :
    Tracks levels turns .any (reportIf isMisplaced construct token)
      (Parse.reportIf isMisplaced construct token) := by
  intro T σ es hσ
  cases isMisplaced with
  | false =>
      change Agree T .any σ (if T.mode.reportsMisplaced && false then _ else _) _
      rw [Bool.and_false]
      exact .returned hσ.reached
  | true =>
      let e : ParseError := ⟨.misplaced construct, token⟩
      change Agree T .any σ
        (if T.mode.reportsMisplaced && true then
          (if T.mode.collectAll then .returned () (σ.record e) else .aborted (σ.record e))
          else .returned () σ)
        (if T.mode.collectAll then .ok () (T.cursor σ.current (es ++ [e])) else .abort (es ++ [e]))
      have herrors : σ.errors ++ (if T.mode.reportsMisplaced then [e] else []) =
          (es ++ [e]).filter T.counts := by
        cases hmode : T.mode <;> simp [hσ.errors, Setting.counts, hmode, Mode.reportsMisplaced,
          e, ParseFault.isMisplaced]
      cases hmode : T.mode with
      | first =>
          rw [hmode] at herrors
          exact .aborted herrors (by simp [State.record])
      | all =>
          rw [hmode] at herrors
          exact .returned ⟨rfl, hσ.inside, herrors, Nat.le_refl _, rfl⟩
      | lenient =>
          rw [hmode] at herrors
          exact .returned ⟨rfl, hσ.inside, (List.append_nil _).symm.trans herrors, Nat.le_refl _,
            rfl⟩

theorem tooDeep : Tracks levels turns pace (tooDeep : Descent α) Parse.tooDeep := by
  intro T σ es hσ
  change Agree T pace σ (.aborted (σ.record ⟨.nestedTooDeeply, T.tokenAt σ.current⟩))
    (.abort (es ++ [⟨.nestedTooDeeply, (T.cursor σ.current es).current⟩]))
  rw [Setting.current_cursor hσ.inside]
  refine .aborted ?_ (by simp [State.record])
  simp [State.record, hσ.errors, Setting.counts, ParseFault.isMisplaced]

end Errors

section Contexts

/-- What is counted during a reader is counted back, however it ends. -/
theorem counting
    {levels' : Nat}
    {enter : Counters → Counters}
    {leave : Counters → Counters → Counters}
    {T : Setting} {σ : State} {es : List ParseError}
    (hp : Tracks levels' turns pace m p)
    (hσ : Ready T levels turns σ es)
    (hlevels : (enter σ.counters).levels < levels')
    (hback : leave σ.counters (enter σ.counters) = σ.counters) :
    Agree T pace σ (counting enter leave m T σ)
      (p (T.context (enter σ.counters)) (T.cursor σ.current es)) := by
  have hagree := hp T { σ with counters := enter σ.counters } es
    ⟨hσ.inside, hσ.errors, hlevels, hσ.turns⟩
  unfold Descent.counting
  generalize m T { σ with counters := enter σ.counters } = o,
    p (T.context (enter σ.counters)) (T.cursor σ.current es) = r at hagree ⊢
  have hleft {x : Pace} {τ : State} {t : Parse.Cursor}
      (h : Reached T x { σ with counters := enter σ.counters } τ t) :
      Reached T x σ { τ with counters := leave σ.counters τ.counters } t :=
    ⟨h.cursor, h.inside, h.errors, h.pace, by rw [h.counters, hback]⟩
  cases hagree with
  | returned h => exact .returned (hleft h)
  | raised htoken hfault h => exact .raised htoken hfault (hleft h)
  | aborted herrors hne => exact .aborted herrors hne

theorem nested (hp : Tracks levels turns pace m p) :
    Tracks (levels + 1) turns pace (nested m) (Parse.nested p) := by
  intro T σ es hσ
  change Agree T pace σ ((if maxNesting ≤ σ.counters.depth then Descent.tooDeep
    else Descent.counting _ _ m : Descent α) T σ)
    (if maxNesting ≤ σ.counters.depth then Parse.tooDeep _ _ else _)
  split
  · exact tooDeep T σ es hσ
  · next hdepth =>
      have hlevels := hσ.levels
      refine counting hp hσ ?_ rfl
      unfold Counters.levels at hlevels ⊢
      simp only
      omega

theorem inFunction (hp : Tracks levels turns pace m p) :
    Tracks levels turns pace (inFunction m) (Parse.within Parse.Context.enterFunction p) := by
  intro T σ es hσ
  exact counting hp hσ hσ.levels rfl

theorem nestedArrow (hp : Tracks levels turns pace m p) :
    Tracks (levels + 1) turns pace (nestedArrow m) (Parse.nestedArrow p) := by
  intro T σ es hσ
  change Agree T pace σ ((if maxArrowNesting ≤ σ.counters.arrows then Descent.tooDeep
    else Descent.counting _ _ (Descent.inFunction m) : Descent α) T σ)
    (if maxArrowNesting ≤ σ.counters.arrows then Parse.tooDeep _ _ else _)
  split
  · exact tooDeep T σ es hσ
  · next harrows =>
      have hlevels := hσ.levels
      refine counting (inFunction hp) hσ ?_ rfl
      unfold Counters.levels at hlevels ⊢
      simp only
      omega

theorem inLoop (hp : Tracks levels turns pace m p) :
    Tracks levels turns pace (inLoop m) (Parse.within Parse.Context.enterLoop p) := by
  intro T σ es hσ
  exact counting hp hσ hσ.levels rfl

theorem inClass (hasSuperclass : Bool) (hp : Tracks levels turns pace m p) :
    Tracks levels turns pace (inClass hasSuperclass m)
      (Parse.within (Parse.Context.enterClass hasSuperclass) p) := by
  intro T σ es hσ
  exact counting hp hσ hσ.levels rfl

end Contexts

end Tracks

end Lox.Descent
