import Lox.Proofs.Parse.Comparison.Statement

/-!
# Reading without a limit

`Grammar.limitless` reads like the grammar of the language, but every construct counts the levels of
nesting anew, so no code is too deep for it. What it reads without an error is also read by the
grammar with the limit, from every level on, unless that finds the code too deeply nested
(`Parse.Follows`).
-/

namespace Lox.Parse

section Limitless

/-- Begin to count the levels of nesting. -/
def afresh {α : Type} (p : Parse α) : Parse α :=
  within (fun c => { c with depth := 0, arrows := 0 }) p

/-- The readers for code with at most so many constructs inside one another, whatever they are; each
of them counts the levels of nesting anew. -/
def Grammar.limitless : Nat → Grammar
  | 0 => ⟨tooDeep, tooDeep, tooDeep, tooDeep, tooDeep⟩
  | constructs + 1 =>
      let g := Grammar.limitless constructs
      ⟨afresh (Parse.assignment g), afresh (Parse.ternary g), afresh (Parse.unary g),
        afresh (Parse.statement g), afresh (Parse.declaration g)⟩

/-- The statements of a program, read by a grammar. -/
def Grammar.statements (g : Grammar) : Parse (List Stmt) := do
  let statements ← manyUntil atEnd g.declaration (← budget) []
  return statements.filterMap id

end Limitless

/-- What the first reader reads without an error the second one reads too, from every level of
nesting on, unless it finds the code nested too deeply. -/
structure Follows {α : Type} [Relocatable α] (p p' : Parse α) : Prop where
  extends_from : ∀ {c : Context} {s t : Cursor} {a : α},
    p c s = .ok a t → t.errors = [] → s.errors = []
  follows : ∀ {c : Context} {s t : Cursor} {a : α} (depth arrows : Nat),
    p c s = .ok a t → t.errors = [] →
      p' { c with depth := depth, arrows := arrows } s = .ok (move .identity a) t ∨
        ∃ token, p' { c with depth := depth, arrows := arrows } s =
          .abort [⟨.nestedTooDeeply, token⟩]

namespace Follows

variable {α β : Type} [Relocatable α] [Relocatable β]

section Rules

/-- A reader that never succeeds without an error. -/
theorem of_never
    {p p' : Parse α}
    (h : ∀ c s a t, p c s = .ok a t → t.errors ≠ []) :
    Follows p p' where
  extends_from hp ht := absurd ht (h _ _ _ _ hp)
  follows _ _ hp ht := absurd ht (h _ _ _ _ hp)

/-- Readers that record nothing and take the same. -/
theorem of_keeps
    {p p' : Parse α}
    (value : Cursor → α)
    (next : Cursor → Cursor)
    (hnext : ∀ s, (next s).errors = s.errors)
    (hp : ∀ c s, p c s = .ok (value s) (next s))
    (hp' : ∀ c s, p' c s = .ok (move .identity (value s)) (next s)) :
    Follows p p' where
  extends_from {c s _ _} h ht := by
    rw [hp c s] at h
    cases h
    exact (hnext s).symm.trans ht
  follows {c s _ _} depth arrows h _ := by
    rw [hp c s] at h
    cases h
    exact .inl (hp' _ s)

theorem of_value
    {p p' : Parse α}
    (value : Cursor → α)
    (hp : ∀ c s, p c s = .ok (value s) s)
    (hp' : ∀ c s, p' c s = .ok (move .identity (value s)) s) :
    Follows p p' :=
  of_keeps value id (fun _ => rfl) hp hp'

theorem tooDeep {p' : Parse α} : Follows Parse.tooDeep p' :=
  of_never fun _ _ _ _ h => by cases h

theorem fail (fault : ParseFault) {p' : Parse α} : Follows (Parse.fail fault) p' :=
  of_never fun _ _ _ _ h => by cases h

theorem report (e : ParseError) {p' : Parse Unit} : Follows (Parse.report e) p' := by
  refine of_never fun c s _ t h => ?_
  unfold Parse.report at h
  split at h <;> cases h
  simp [Cursor.record]

theorem bind
    {p p' : Parse α}
    {f f' : α → Parse β}
    (hp : Follows p p')
    (hf : ∀ a, Follows (f a) (f' (move .identity a))) :
    Follows (p >>= f) (p' >>= f') where
  extends_from h hu := by
    obtain ⟨a, t, hpa, hfa⟩ := bind_eq_ok.mp h
    exact hp.extends_from hpa ((hf a).extends_from hfa hu)
  follows depth arrows h hu := by
    obtain ⟨a, t, hpa, hfa⟩ := bind_eq_ok.mp h
    have ht := (hf a).extends_from hfa hu
    simp only [bind_apply]
    rcases hp.follows depth arrows hpa ht with hp' | ⟨token, hp'⟩
    · rw [hp']
      exact (hf a).follows depth arrows hfa hu
    · rw [hp']
      exact .inr ⟨token, rfl⟩

theorem advance : Follows Parse.advance Parse.advance :=
  .of_keeps (fun s => s.advance.previous) Cursor.advance Cursor.errors_advance (fun _ _ => rfl)
    fun _ _ => rfl

theorem check (kind : TokenKind) : Follows (Parse.check kind) (Parse.check kind) :=
  .of_value (fun s => s.rest.head?.map (·.kind) == some kind) (fun _ _ => rfl) fun _ _ => rfl

theorem checkNext (kind : TokenKind) : Follows (Parse.checkNext kind) (Parse.checkNext kind) :=
  .of_value (fun s => s.rest[1]?.map (·.kind) == some kind) (fun _ _ => rfl) fun _ _ => rfl

theorem consume (kind : TokenKind) (expected : String) (reason : Option String) :
    Follows (Parse.consume kind expected reason) (Parse.consume kind expected reason) := by
  refine (check kind).bind fun found => ?_
  cases found with
  | true => exact advance
  | false => exact .fail _

theorem context
    {f f' : Context → Parse α}
    (hf : ∀ c, Follows (f c) (f' c))
    (hblind : ∀ c all depth arrows,
      f' { c with collectAll := all, depth := depth, arrows := arrows } = f' c) :
    Follows (Parse.context >>= f) (Parse.context >>= f') where
  extends_from {c _ _ _} h ht := (hf c).extends_from h ht
  follows {c s t a} depth arrows h ht := by
    have hsame : f' { c with depth := depth, arrows := arrows } = f' c :=
      hblind c c.collectAll depth arrows
    simp only [bind_apply, Parse.context, hsame]
    exact (hf c).follows depth arrows h ht

/-- The tokens that are left are the same. -/
theorem remaining
    {f f' : List Token → Parse α}
    (hf : ∀ tokens, Follows (f tokens) (f' tokens)) :
    Follows (Parse.remaining >>= f) (Parse.remaining >>= f') where
  extends_from {_ s _ _} h ht := (hf s.rest).extends_from h ht
  follows {_ s _ _} depth arrows h ht := (hf s.rest).follows depth arrows h ht

theorem budget
    {f f' : List Token → Parse α}
    (hf : ∀ tokens, Follows (f tokens) (f' tokens)) :
    Follows (Parse.budget >>= f) (Parse.budget >>= f') where
  extends_from {_ s _ _} h ht := (hf (s.final :: s.rest)).extends_from h ht
  follows {_ s _ _} depth arrows h ht := (hf (s.final :: s.rest)).follows depth arrows h ht

theorem within
    {p p' : Parse α}
    {change : Context → Context}
    (hchange : ∀ c all depth arrows,
      change { c with collectAll := all, depth := depth, arrows := arrows } =
        { change c with collectAll := all, depth := depth, arrows := arrows })
    (hp : Follows p p') :
    Follows (Parse.within change p) (Parse.within change p') where
  extends_from h ht := hp.extends_from h ht
  follows {c s t a} depth arrows h ht := by
    have hinside : change { c with depth := depth, arrows := arrows } =
        { change c with depth := depth, arrows := arrows } := by
      have hsame : change c =
          { change c with collectAll := c.collectAll, depth := c.depth, arrows := c.arrows } :=
        hchange c c.collectAll c.depth c.arrows
      rw [hsame]
      exact hchange c c.collectAll depth arrows
    rw [Parse.within, hinside]
    exact hp.follows depth arrows h ht

/-- The first reader may count the levels anew. -/
theorem afresh {p p' : Parse α} (hp : Follows p p') : Follows (Parse.afresh p) p' where
  extends_from h ht := hp.extends_from h ht
  follows {c _ _ _} depth arrows h ht :=
    hp.follows (c := { c with depth := 0, arrows := 0 }) depth arrows h ht

/-- The second reader may find any code nested too deeply. -/
theorem refused {p p' : Parse α} (hp : Follows p p') : Follows p Parse.tooDeep where
  extends_from h ht := hp.extends_from h ht
  follows {_ s _ _} _ _ h ht := .inr ⟨s.current, by simp [Parse.tooDeep, hp.extends_from h ht]⟩

/-- One level further in, which only the second reader may refuse. -/
theorem nestedIn
    {p p' : Parse α}
    (limit : Nat)
    (level : Context → Nat)
    (enter : Context → Context)
    (henter : ∀ (c : Context) (depth arrows : Nat), ∃ depth' arrows',
      enter { c with depth := depth, arrows := arrows } =
        { enter c with depth := depth', arrows := arrows' })
    (hp : Follows p p') :
    Follows (fun c s => if limit ≤ level c then Parse.tooDeep c s else p (enter c) s)
      (fun c s => if limit ≤ level c then Parse.tooDeep c s else p' (enter c) s) where
  extends_from h ht := by
    split at h
    · cases h
    · exact hp.extends_from h ht
  follows {c s t a} depth arrows h ht := by
    split at h
    · cases h
    · split
      · have hs := hp.extends_from h ht
        exact .inr ⟨s.current, by simp [Parse.tooDeep, hs]⟩
      · obtain ⟨depth', arrows', hdeeper⟩ := henter c depth arrows
        rw [hdeeper]
        exact hp.follows depth' arrows' h ht

theorem repeatWhile
    {σ ρ : Type}
    [Relocatable σ]
    [Relocatable ρ]
    {test test' : Parse Bool}
    {turn turn' : σ → Parse (σ × Bool)}
    {result result' : σ → ρ}
    (htest : Follows test test')
    (hturn : ∀ s, Follows (turn s) (turn' (move .identity s)))
    (hresult : ∀ s, result' (move .identity s) = move .identity (result s))
    (tokens : List Token)
    (s : σ) :
    Follows (Parse.repeatWhile test turn result tokens s)
      (Parse.repeatWhile test' turn' result' tokens (move .identity s)) := by
  have hdone (s : σ) : Follows (pure (result s)) (pure (result' (move .identity s))) :=
    of_value (fun _ => result s) (fun _ _ => rfl) fun _ _ => hresult s ▸ rfl
  induction tokens generalizing s with
  | nil => exact hdone s
  | cons _ tokens ih =>
      refine htest.bind fun holds => ?_
      cases holds with
      | false => exact hdone s
      | true =>
          refine (hturn s).bind fun next => ?_
          obtain ⟨next, more⟩ := next
          cases more with
          | true => exact ih next
          | false => exact hdone next

/-- There is nothing to recover from. -/
theorem recovering {p p' : Parse Stmt} (hp : Follows p p') :
    Follows (Parse.recovering p) (Parse.recovering p') := by
  have hread {c : Context} {s t : Cursor} {stmt? : Option Stmt}
      (h : Parse.recovering p c s = .ok stmt? t) (ht : t.errors = []) :
      ∃ stmt, stmt? = some stmt ∧ p c s = .ok stmt t := by
    unfold Parse.recovering at h
    split at h
    · next stmt u hstmt =>
        cases h
        exact ⟨stmt, rfl, hstmt⟩
    · cases h
    · next e u _ =>
        split at h <;> cases h
        next hreport =>
          unfold Parse.report at hreport
          split at hreport <;> cases hreport
          simp [Cursor.errors_synchronize, Cursor.record] at ht
  refine ⟨fun h ht => ?_, fun depth arrows h ht => ?_⟩
  · obtain ⟨stmt, -, hstmt⟩ := hread h ht
    exact hp.extends_from hstmt ht
  · obtain ⟨stmt, rfl, hstmt⟩ := hread h ht
    unfold Parse.recovering
    rcases hp.follows depth arrows hstmt ht with h' | ⟨token, h'⟩
    · rw [h']
      exact .inl rfl
    · rw [h']
      exact .inr ⟨token, rfl⟩

end Rules

end Follows

/-- Reading without a limit and with it, compared. -/
def limiting : Comparison where
  relocation := .identity
  reads _ p p' := Follows p p'

theorem limiting_lawful : limiting.Lawful where
  merges := Relocation.identity_merges
  within_extent h _ := h
  pure h := .of_value _ (fun _ _ => rfl) fun _ _ => h ▸ rfl
  bind := .bind
  context := .context
  peek := .of_value (·.current) (fun _ _ => rfl) fun _ _ => rfl
  previous := .of_value (·.previous) (fun _ _ => rfl) fun _ _ => rfl
  atEnd := .of_value (·.rest.isEmpty) (fun _ _ => rfl) fun _ _ => rfl
  check := .check
  check_continues _ := .check _
  checkNext kind _ hf := (Follows.checkNext kind).bind hf
  advance := .advance
  consume := .consume
  fail fault := .fail fault
  report e := .report e
  tooDeep := .tooDeep
  within := .within
  nested := .nestedIn maxNesting (·.depth) _ fun _ depth arrows => ⟨depth + 1, arrows, rfl⟩
  nestedArrow := .nestedIn maxArrowNesting (·.arrows) _ fun _ depth arrows =>
    ⟨depth, arrows + 1, rfl⟩
  repeatWhile htest hturn hresult :=
    .budget fun tokens => .repeatWhile htest hturn hresult tokens _
  startsArrow expected hp hq := by
    refine .remaining fun tokens => ?_
    split
    · exact hp
    · refine hq.bind fun a => (Follows.consume _ _ _).bind fun _ => ?_
      exact .of_value _ (fun _ _ => rfl) fun _ _ => rfl
  recovering := .recovering

/-- Whatever is too deep for either grammar, the one with the limit follows the one without. -/
theorem Grammar.limitless_comparable (constructs depth : Nat) :
    (Grammar.limitless constructs).Comparable limiting (Grammar.ofDepth depth) := by
  have hC := limiting_lawful
  induction constructs generalizing depth with
  | zero => exact ⟨.tooDeep, .tooDeep, .tooDeep, .tooDeep, .tooDeep⟩
  | succ constructs ih =>
      cases depth with
      | zero =>
          have hg := ih 0
          exact
            { assignment := (hC.assignment hg).afresh.refused
              ternary := (hC.ternary hg).afresh.refused
              unary := (hC.unary hg).afresh.refused
              statement := (hC.statement hg).afresh.refused
              declaration := (hC.declaration hg).afresh.refused }
      | succ depth =>
          have hg := ih depth
          exact
            { assignment := (hC.assignment hg).afresh
              ternary := (hC.ternary hg).afresh
              unary := (hC.unary hg).afresh
              statement := (hC.statement hg).afresh
              declaration := (hC.declaration hg).afresh }

theorem Grammar.statements_follow (constructs : Nat) :
    Follows (Grammar.limitless constructs).statements Parse.program :=
  limiting_lawful.statements (Grammar.limitless_comparable constructs _)

end Lox.Parse
