import Lox.Proofs.Parse.Comparison.Statement

/-!
# Reading relocated tokens

Readers look at the kinds and texts of tokens, never at their places. So what is read from relocated
tokens is what is read from the tokens themselves, relocated; this goes for the errors that are found
as well as for the result.
-/

namespace Lox

section Outcomes

variable {α : Type} [Relocatable α]

/-- The same place in the relocated tokens, after the same errors. -/
def Parse.Cursor.relocate (r : Relocation) (s : Parse.Cursor) : Parse.Cursor where
  previous := move r s.previous
  rest := s.rest.map (move r)
  final := move r s.final
  errors := s.errors.map (move r)

/-- The outcome with all places relocated. -/
def Parsed.relocate (r : Relocation) : Parsed α → Parsed α
  | .ok a s => .ok (move r a) (s.relocate r)
  | .fail e s => .fail (move r e) (s.relocate r)
  | .abort errors => .abort (errors.map (move r))

end Outcomes

namespace Parse

/-- From relocated tokens the second reader reads what the first one reads, relocated. -/
def Relocates {α : Type} [Relocatable α] (r : Relocation) (p p' : Parse α) : Prop :=
  ∀ c s, p' c (s.relocate r) = (p c s).relocate r

namespace Cursor

variable (r : Relocation) (s : Cursor)

theorem relocate_current : (s.relocate r).current = move r s.current := by
  obtain ⟨previous, rest, final, errors⟩ := s
  cases rest <;> rfl

theorem relocate_advance : (s.relocate r).advance = s.advance.relocate r := by
  obtain ⟨previous, rest, final, errors⟩ := s
  cases rest <;> rfl

theorem relocate_record (e : ParseError) :
    (s.relocate r).record (move r e) = (s.record e).relocate r := by
  simp [record, relocate]

/-- Boundaries of statements are where they were. -/
theorem skipToBoundary_relocated (previous : Token) (rest : List Token) :
    skipToBoundary (move r previous) (rest.map (move r)) =
      ((move r (skipToBoundary previous rest).1), (skipToBoundary previous rest).2.map (move r)) := by
  induction rest generalizing previous with
  | nil => rfl
  | cons token rest ih =>
      simp only [List.map_cons, skipToBoundary, Token.kind_move]
      split
      · rfl
      · exact ih token

theorem relocate_synchronize : (s.relocate r).synchronize = s.synchronize.relocate r := by
  have hskip := skipToBoundary_relocated r s.advance.previous s.advance.rest
  simp only [synchronize, relocate_advance]
  simp only [relocate, hskip]

end Cursor

/-- An arrow is found where it was. -/
theorem startsArrow_relocated (r : Relocation) (expectsName : Bool) (tokens : List Token) :
    Parse.startsArrow expectsName (tokens.map (move r)) =
      Parse.startsArrow expectsName tokens := by
  induction tokens generalizing expectsName with
  | nil => rfl
  | cons token rest ih =>
      simp only [List.map_cons, Parse.startsArrow, Token.kind_move, ih]
      cases rest <;> rfl

namespace Relocates

variable {α β : Type} [Relocatable α] [Relocatable β] {r : Relocation}

/-- A reader that takes nothing. -/
theorem of_value
    {p p' : Parse α}
    (value : Context → Cursor → α)
    (hp : ∀ c s, p c s = .ok (value c s) s)
    (hp' : ∀ c s, p' c (s.relocate r) = .ok (move r (value c s)) (s.relocate r)) :
    Relocates r p p' := by
  intro c s
  rw [hp, hp']
  rfl

theorem pure (a : α) : Relocates r (Pure.pure a) (Pure.pure (move r a)) :=
  fun _ _ => rfl

theorem bind
    {p p' : Parse α}
    {f f' : α → Parse β}
    (hp : Relocates r p p')
    (hf : ∀ a, Relocates r (f a) (f' (move r a))) :
    Relocates r (p >>= f) (p' >>= f') := by
  intro c s
  rw [bind_apply, bind_apply, hp]
  cases p c s with
  | ok a t => exact hf a c t
  | fail e t => rfl
  | abort errors => rfl

theorem check (kind : TokenKind) : Relocates r (Parse.check kind) (Parse.check kind) :=
  of_value (fun _ s => (s.rest.head?.map (·.kind)) == some kind) (fun _ _ => rfl) fun _ s => by
    obtain ⟨previous, rest, final, errors⟩ := s
    cases rest <;> rfl

theorem checkNext (kind : TokenKind) :
    Relocates r (Parse.checkNext kind) (Parse.checkNext kind) :=
  of_value (fun _ s => (s.rest[1]?.map (·.kind)) == some kind) (fun _ _ => rfl) fun _ s => by
    obtain ⟨previous, rest, final, errors⟩ := s
    rcases rest with _ | ⟨_, _ | _⟩ <;> rfl

theorem advance : Relocates r Parse.advance Parse.advance := by
  intro c s
  simp only [Parse.advance, Cursor.relocate_advance]
  rfl

theorem fail (fault : ParseFault) :
    Relocates r (Parse.fail fault : Parse α) (Parse.fail (move r fault)) := by
  intro c s
  simp only [Parse.fail, Cursor.relocate_current]
  rfl

theorem consume (kind : TokenKind) (expected : String) (reason : Option String) :
    Relocates r (Parse.consume kind expected reason) (Parse.consume kind expected reason) := by
  refine (check kind).bind fun found => ?_
  cases found with
  | true => exact advance
  | false => exact fail (.expectedToken expected reason)

theorem report (e : ParseError) : Relocates r (Parse.report e) (Parse.report (move r e)) := by
  intro c s
  simp only [Parse.report]
  split
  · rw [Cursor.relocate_record]
    rfl
  · simp [Parsed.relocate, Cursor.relocate]

theorem tooDeep : Relocates r (Parse.tooDeep : Parse α) Parse.tooDeep := by
  intro c s
  simp only [Parse.tooDeep, Cursor.relocate_current]
  simp [Parsed.relocate, Cursor.relocate]
  rfl

/-- The number of tokens that are left is the same. -/
theorem repeatWhile
    {σ ρ : Type}
    [Relocatable σ]
    [Relocatable ρ]
    {test test' : Parse Bool}
    {turn turn' : σ → Parse (σ × Bool)}
    {result result' : σ → ρ}
    (htest : Relocates r test test')
    (hturn : ∀ s, Relocates r (turn s) (turn' (move r s)))
    (hresult : ∀ s, result' (move r s) = move r (result s))
    (tokens : List Token)
    (s : σ) :
    Relocates r (Parse.repeatWhile test turn result tokens s)
      (Parse.repeatWhile test' turn' result' (tokens.map (move r)) (move r s)) := by
  have hdone (s : σ) : Relocates r (Pure.pure (result s)) (Pure.pure (result' (move r s))) := by
    rw [hresult]
    exact pure (result s)
  induction tokens generalizing s with
  | nil => exact hdone s
  | cons _ tokens ih =>
      refine htest.bind fun holds => ?_
      cases holds with
      | false => exact hdone s
      | true =>
          refine (hturn s).bind fun next => ?_
          obtain ⟨next, more⟩ := next
          cases more with
          | true => exact ih next
          | false => exact hdone next

theorem startsArrow
    {p p' q q' : Parse α}
    (hp : Relocates r p p')
    (hq : Relocates r q q') :
    Relocates r (do if Parse.startsArrow true ((← remaining).drop 1) then p else q)
      (do if Parse.startsArrow true ((← remaining).drop 1) then p' else q') := by
  intro c s
  have hrest : (s.relocate r).rest.drop 1 = (s.rest.drop 1).map (move r) :=
    List.map_drop.symm
  simp only [bind_apply, remaining, hrest, startsArrow_relocated]
  split
  · exact hp c s
  · exact hq c s

/-- Reading is taken up at the same boundary. -/
theorem recovering {p p' : Parse Stmt} (hp : Relocates r p p') :
    Relocates r (Parse.recovering p) (Parse.recovering p') := by
  intro c s
  unfold Parse.recovering
  rw [hp]
  cases p c s with
  | ok a t => rfl
  | abort errors => rfl
  | fail e t =>
      simp only [Parsed.relocate, report e c t]
      cases Parse.report e c t with
      | ok _ u =>
          simp only [Cursor.relocate_synchronize]
          rfl
      | fail e u => rfl
      | abort errors => rfl

end Relocates

/-- The readers of tokens and of relocated tokens, compared. -/
def relocated (r : Relocation) : Comparison where
  relocation := r
  reads _ p p' := Relocates r p p'

theorem relocated_lawful {r : Relocation} (hr : r.Merges) : (relocated r).Lawful where
  merges := hr
  within_extent h _ := h
  pure h := h ▸ .pure _
  bind := .bind
  context hf _ := fun c s => hf c c s
  peek := .of_value (fun _ s => s.current) (fun _ _ => rfl) fun _ s =>
    congrArg (Parsed.ok · _) (s.relocate_current r)
  previous := .of_value (fun _ s => s.previous) (fun _ _ => rfl) fun _ _ => rfl
  atEnd := .of_value (fun _ s => s.rest.isEmpty) (fun _ _ => rfl) fun _ s =>
    congrArg (Parsed.ok · _) List.isEmpty_map
  check := .check
  check_continues _ := .check _
  checkNext kind _ hf := (Relocates.checkNext kind).bind hf
  advance := .advance
  consume := .consume
  fail := .fail
  report := .report
  tooDeep := .tooDeep
  within _ hp := fun _ s => hp _ s
  nested hp := fun c s => by
    unfold Parse.nested
    split
    · exact Relocates.tooDeep c s
    · exact hp _ s
  nestedArrow hp := fun c s => by
    unfold Parse.nestedArrow
    split
    · exact Relocates.tooDeep c s
    · exact hp _ s
  repeatWhile htest hturn hresult := fun c s =>
    Relocates.repeatWhile htest hturn hresult (s.final :: s.rest) _ c s
  startsArrow expected hp hq := hp.startsArrow (hq.bind fun a =>
    (Relocates.consume _ _ _).bind fun _ => .pure a)
  recovering := .recovering

end Parse

namespace Program

/-- What is read from relocated tokens, a program or errors, is relocated. -/
theorem ofTokens_relocated
    {r : Relocation}
    (hr : r.Merges)
    (tokens : List Token)
    (collectAll : Bool) :
    ofTokens (tokens.map (move r)) collectAll =
      ((ofTokens tokens collectAll).map fun program => ⟨move r program.statements⟩).mapError
        (List.map (move r)) := by
  unfold ofTokens
  rw [List.getLast?_map]
  cases tokens.getLast? with
  | none => rfl
  | some final =>
      have hstart : (⟨(tokens.map (move r)).headD (move r final), (tokens.map (move r)).dropLast,
          move r final, []⟩ : Parse.Cursor) =
          Parse.Cursor.relocate r ⟨tokens.headD final, tokens.dropLast, final, []⟩ := by
        cases tokens <;> simp [Parse.Cursor.relocate, List.map_dropLast]
      have hprogram : Parse.Relocates r Parse.program Parse.program :=
        (Parse.relocated_lawful hr).program
      simp only [Option.map_some, hstart, hprogram (.outermost collectAll) _]
      cases Parse.program (.outermost collectAll) _ with
      | ok statements s =>
          simp only [Parsed.relocate, Parse.Cursor.relocate, List.isEmpty_map]
          split <;> rfl
      | fail e s =>
          have herrors : (s.errors.map (move r)) ++ [move r e] =
              (s.errors ++ [e]).map (move r) := by
            simp
          exact congrArg Except.error herrors
      | abort errors => rfl

/-- If every token stays where it is, so do the program and the errors. -/
theorem fixed_of_tokens
    {r : Relocation}
    (hr : r.Merges)
    {tokens : List Token}
    (htokens : ∀ token ∈ tokens, move r token = token)
    (collectAll : Bool) :
    (∀ program, ofTokens tokens collectAll = .ok program →
      move r program.statements = program.statements) ∧
    (∀ errors, ofTokens tokens collectAll = .error errors → ∀ e ∈ errors, move r e = e) := by
  have hfixed : tokens.map (move r) = tokens :=
    (List.map_congr_left htokens).trans (List.map_id tokens)
  have hmoved := ofTokens_relocated hr tokens collectAll
  rw [hfixed] at hmoved
  refine ⟨fun program h => ?_, fun errors h e he => ?_⟩
  · rw [h] at hmoved
    exact (congrArg Program.statements (Except.ok.inj hmoved)).symm
  · rw [h] at hmoved
    have herrors : errors = errors.map (move r) := Except.error.inj hmoved
    exact List.map_inj_left.mp (herrors.symm.trans (List.map_id errors).symm) e he

end Program

end Lox
