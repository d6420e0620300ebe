import Lox.Proofs.Parse.Comparison.Statement

/-!
# Readers look only at what they read

A reader that succeeds without an error reads the same where its tokens are the beginning of a
longer text, relocated or not. It needs a token behind those it takes, the first of the others, to
know where it ends; a closed reader needs none, as long as no clause follows that would go on with
the statement.
-/

namespace Lox.Parse

/-- The tokens that follow do not go on with a statement. -/
def Separate (extra : List Token) : Prop :=
  ∀ token ∈ extra.head?, continuesStatement token.kind = false

theorem separate_nil : Separate [] := by
  simp [Separate]

/-- The same place in a longer text, in which other tokens follow and the places are relocated. -/
def Cursor.beside
    (s : Cursor)
    (r : Relocation)
    (extra : List Token)
    (final : Token) :
    Cursor where
  previous := move r s.previous
  rest := s.rest.map (move r) ++ extra
  final := final
  errors := []

/-- From the one cursor to the other tokens of this extent are read, without an error. -/
structure Reach (x : Extent) (s t : Cursor) : Prop where
  errors : s.errors = []
  final : t.final = s.final
  suffix : t.rest <:+ s.rest
  takes : t.rest ≠ [] ∨ x.closed = true → t.rest.length + x.takes ≤ s.rest.length

/-- Does a reader of this extent know that it ends at the cursor, whatever tokens follow? -/
def Settled (x : Extent) (t : Cursor) (extra : List Token) : Prop :=
  t.rest ≠ [] ∨ (x.closed = true ∧ Separate extra)

/-- What the first reader reads without an error, the second one reads in a longer text. -/
structure ReadsBeside {α : Type} [Relocatable α] (r : Relocation) (x : Extent) (p p' : Parse α) :
    Prop where
  reach : ∀ {c : Context} {s t : Cursor} {a : α},
    p c s = .ok a t → t.errors = [] → Reach x s t
  beside : ∀ {c : Context} {s t : Cursor} {a : α} {extra : List Token} (final : Token),
    p c s = .ok a t → t.errors = [] → Settled x t extra →
    p' c (s.beside r extra final) = .ok (move r a) (t.beside r extra final)

section Reach

theorem Reach.refl {x : Extent} {s : Cursor} (hs : s.errors = []) (hx : x.takes = 0) :
    Reach x s s where
  errors := hs
  final := rfl
  suffix := List.suffix_rfl
  takes _ := by omega

theorem Reach.within {x y : Extent} {s t : Cursor} (h : Reach x s t) (hxy : y.Within x) :
    Reach y s t where
  errors := h.errors
  final := h.final
  suffix := h.suffix
  takes hend := by
    have := h.takes (hend.imp_right hxy.closed)
    have := hxy.takes
    omega

theorem Settled.within
    {x y : Extent}
    {t : Cursor}
    {extra : List Token}
    (h : Settled y t extra)
    (hxy : y.Within x) :
    Settled x t extra :=
  h.imp_right (And.imp_left hxy.closed)

/-- If the second of two readers knows its end, the first one does. -/
theorem Reach.first
    {x y : Extent}
    {t u : Cursor}
    (h : Reach y t u)
    (hend : u.rest ≠ [] ∨ (x.andThen y).closed = true) :
    t.rest ≠ [] ∨ x.closed = true := by
  rcases hend with hrest | hclosed
  · exact .inl fun hnil => hrest (List.suffix_nil.mp (hnil ▸ h.suffix))
  · simp only [Extent.andThen, Bool.and_eq_true, Bool.or_eq_true, decide_eq_true_eq] at hclosed
    obtain ⟨hy, hx | htakes⟩ := hclosed
    · exact .inr hx
    · refine .inl fun hnil => ?_
      have := h.takes (.inr hy)
      rw [hnil, List.length_nil] at this
      omega

theorem Extent.andThen_closed {x y : Extent} (h : (x.andThen y).closed = true) :
    y.closed = true :=
  (Bool.and_eq_true_iff.mp h).1

theorem Reach.trans
    {x y : Extent}
    {s t u : Cursor}
    (h : Reach x s t)
    (h' : Reach y t u) :
    Reach (x.andThen y) s u where
  errors := h.errors
  final := h'.final.trans h.final
  suffix := h'.suffix.trans h.suffix
  takes hend := by
    have hx := h.takes (h'.first hend)
    have hy := h'.takes (hend.imp_right Extent.andThen_closed)
    simp only [Extent.andThen]
    omega

theorem Settled.first
    {x y : Extent}
    {t u : Cursor}
    {extra : List Token}
    (h : Reach y t u)
    (hend : Settled (x.andThen y) u extra) :
    Settled x t extra := by
  rcases h.first (hend.imp_right And.left) with hrest | hx
  · exact .inl hrest
  · rcases hend with hrest | ⟨-, hseparate⟩
    · exact .inl fun hnil => hrest (List.suffix_nil.mp (hnil ▸ h.suffix))
    · exact .inr ⟨hx, hseparate⟩

theorem Settled.second
    {x y : Extent}
    {u : Cursor}
    {extra : List Token}
    (hend : Settled (x.andThen y) u extra) :
    Settled y u extra :=
  hend.imp_right (And.imp_left Extent.andThen_closed)

end Reach

section Cursors

variable (r : Relocation) (extra : List Token) (final : Token) {s : Cursor}

/-- The tokens that both texts have. -/
theorem Cursor.getElem?_beside {i : Nat} (h : i < s.rest.length) :
    (s.beside r extra final).rest[i]? = s.rest[i]?.map (move r) := by
  simp only [beside]
  rw [List.getElem?_append_left (by simpa using h), List.getElem?_map]

theorem Cursor.head?_beside (h : s.rest ≠ []) :
    (s.beside r extra final).rest.head? = s.rest.head?.map (move r) := by
  rw [List.head?_eq_getElem?, List.head?_eq_getElem?]
  exact getElem?_beside r extra final (List.length_pos_iff.mpr h)

theorem Cursor.current_beside (h : s.rest ≠ []) :
    (s.beside r extra final).current = move r s.current := by
  cases hrest : s.rest with
  | nil => contradiction
  | cons token rest => simp [beside, current, hrest]

end Cursors

namespace ReadsBeside

variable {α β : Type} [Relocatable α] [Relocatable β]
variable {r : Relocation} {x y : Extent} {p p' : Parse α}

section Rules

theorem within_extent (h : ReadsBeside r x p p') (hyx : y.Within x) : ReadsBeside r y p p' where
  reach hp ht := (h.reach hp ht).within hyx
  beside final hp ht hend := h.beside final hp ht (hend.within hyx)

/-- A reader that never succeeds without an error. -/
theorem of_never
    (h : ∀ c s a t, p c s = .ok a t → t.errors ≠ []) :
    ReadsBeside r x p p' where
  reach hp ht := absurd ht (h _ _ _ _ hp)
  beside _ hp ht _ := absurd ht (h _ _ _ _ hp)

/-- A reader that takes nothing. -/
theorem of_value
    (value : Context → Cursor → α)
    (hp : ∀ c s, p c s = .ok (value c s) s)
    (hx : x.takes = 0)
    (hp' : ∀ {c s extra} (final : Token), Settled x s extra →
      p' c (s.beside r extra final) =
        .ok (move r (value c s)) (s.beside r extra final)) :
    ReadsBeside r x p p' where
  reach {c s t a} h ht := by
    rw [hp] at h
    cases h
    exact .refl ht hx
  beside {c s t a extra} final h ht hend := by
    rw [hp] at h
    cases h
    exact hp' final hend

theorem pure {a a' : α} (h : a' = move r a) :
    ReadsBeside r .tail (Pure.pure a : Parse α) (Pure.pure a') :=
  of_value (fun _ _ => a) (fun _ _ => rfl) rfl fun _ _ => h ▸ rfl

theorem bind
    {f f' : α → Parse β}
    (hp : ReadsBeside r x p p')
    (hf : ∀ a, ReadsBeside r y (f a) (f' (move r a))) :
    ReadsBeside r (x.andThen y) (p >>= f) (p' >>= f') := by
  refine ⟨fun h hu => ?_, fun {c s u b extra} final h hu hend => ?_⟩
  · obtain ⟨a, t, hpa, hfa⟩ := bind_eq_ok.mp h
    have hy := (hf a).reach hfa hu
    exact (hp.reach hpa hy.errors).trans hy
  · obtain ⟨a, t, hpa, hfa⟩ := bind_eq_ok.mp h
    have hy := (hf a).reach hfa hu
    rw [bind_apply, hp.beside final hpa hy.errors (hend.first hy)]
    exact (hf a).beside final hfa hu hend.second

end Rules

section Primitives

theorem peek : ReadsBeside r .part Parse.peek Parse.peek :=
  of_value (fun _ s => s.current) (fun _ _ => rfl) rfl fun final hend => by
    have hrest := hend.resolve_right (by simp [Extent.part])
    rw [Parse.peek, Cursor.current_beside _ _ _ hrest]

theorem previous : ReadsBeside r .tail Parse.previous Parse.previous :=
  of_value (fun _ s => s.previous) (fun _ _ => rfl) rfl fun _ _ => rfl

theorem atEnd : ReadsBeside r .part Parse.atEnd Parse.atEnd :=
  of_value (fun _ s => s.rest.isEmpty) (fun _ _ => rfl) rfl fun {c s extra} final hend => by
    have hrest := hend.resolve_right (by simp [Extent.part])
    cases hlist : s.rest with
    | nil => contradiction
    | cons token rest => simp [Parse.atEnd, Cursor.beside, hlist]

/-- Whether a token is of a kind is decided by the token, or by there being none. -/
theorem check_of
    {kind : TokenKind}
    (hx : x.takes = 0)
    (h : ∀ {s extra} (final : Token), Settled x s extra → s.rest = [] →
      ((s.beside r extra final).rest.head?.map (·.kind) == some kind) = false) :
    ReadsBeside r x (Parse.check kind) (Parse.check kind) :=
  of_value (fun _ s => s.rest.head?.map (·.kind) == some kind) (fun _ _ => rfl) hx
    fun {c s extra} final hend => by
      by_cases hrest : s.rest = []
      · rw [Parse.check, h final hend hrest, hrest]
        rfl
      · rw [Parse.check, Cursor.head?_beside _ _ _ hrest, Option.map_map]
        rfl

theorem check (kind : TokenKind) : ReadsBeside r .part (Parse.check kind) (Parse.check kind) :=
  check_of rfl fun _ hend hrest =>
    absurd hrest (hend.resolve_right (by simp [Extent.part]))

theorem check_continues {kind : TokenKind} (hkind : continuesStatement kind = true) :
    ReadsBeside r .tail (Parse.check kind) (Parse.check kind) :=
  check_of rfl fun {s extra} final hend hrest => by
    obtain ⟨-, hseparate⟩ := hend.resolve_left (by simp [hrest])
    cases extra with
    | nil => simp [Cursor.beside, hrest]
    | cons token extra =>
        have htoken := hseparate token rfl
        have hne : token.kind ≠ kind := by
          rintro rfl
          simp [hkind] at htoken
        simpa [Cursor.beside, hrest] using hne

theorem checkNext
    {f f' : Bool → Parse α}
    (kind : TokenKind)
    (hx : x = .item ∨ x = .double)
    (hf : ∀ b, ReadsBeside r x (f b) (f' b)) :
    ReadsBeside r x (Parse.checkNext kind >>= f) (Parse.checkNext kind >>= f') where
  reach h ht := (hf _).reach h ht
  beside {c s t a extra} final h ht hend := by
    have hreach := (hf _).reach h ht
    have hlong : 1 < s.rest.length := by
      have htakes := hreach.takes (hend.imp_right And.left)
      rcases hx with rfl | rfl
      · have := List.length_pos_iff.mpr (hend.resolve_right (by simp [Extent.item]))
        simp only [Extent.item] at htakes
        omega
      · simp only [Extent.double] at htakes
        omega
    have hsame : ((s.beside r extra final).rest[1]?.map (·.kind) == some kind) =
        (s.rest[1]?.map (·.kind) == some kind) := by
      rw [Cursor.getElem?_beside _ _ _ hlong, Option.map_map]
      rfl
    have hrun := (hf _).beside final h ht hend
    rw [← hsame] at hrun
    exact hrun

theorem advance : ReadsBeside r .item Parse.advance Parse.advance where
  reach {c s t a} h ht := by
    cases h
    rw [Cursor.errors_advance] at ht
    cases hrest : s.rest with
    | nil =>
        have hstill : s.advance = s := by simp [Cursor.advance, hrest]
        rw [hstill]
        exact ⟨ht, rfl, List.suffix_rfl, by simp [hrest, Extent.item]⟩
    | cons token rest =>
        refine ⟨ht, ?_, ?_, fun _ => ?_⟩
        · simp [Cursor.advance, hrest]
        · simp [Cursor.advance, hrest]
        · simp [Cursor.advance, hrest, Extent.item]
  beside {c s t a extra} final h ht hend := by
    cases h
    have hne := hend.resolve_right (by simp [Extent.item])
    cases hrest : s.rest with
    | nil => simp [Cursor.advance, hrest] at hne
    | cons token rest => simp [Parse.advance, Cursor.advance, Cursor.beside, hrest]

/-- A token that is required is there. -/
theorem of_consume
    {kind : TokenKind}
    {expected : String}
    {reason : Option String}
    {c : Context}
    {s t : Cursor}
    {token : Token}
    (h : Parse.consume kind expected reason c s = .ok token t) :
    ∃ rest, s.rest = token :: rest ∧ token.kind = kind ∧
      t = { s with previous := token, rest := rest } := by
  simp only [Parse.consume, bind_apply, Parse.check] at h
  split at h
  · next hfound =>
      cases hrest : s.rest with
      | nil => simp [hrest] at hfound
      | cons head rest =>
          simp only [hrest, List.head?_cons, Option.map_some, beq_iff_eq,
            Option.some.injEq] at hfound
          simp only [Parse.advance, Cursor.advance, hrest, Parsed.ok.injEq] at h
          obtain ⟨rfl, rfl⟩ := h
          exact ⟨rest, rfl, hfound, rfl⟩
  · cases h

theorem consume (kind : TokenKind) (expected : String) (reason : Option String) :
    ReadsBeside r .whole (Parse.consume kind expected reason)
      (Parse.consume kind expected reason) := by
  refine ⟨fun h ht => ?_, fun final h ht hend => ?_⟩
  · obtain ⟨rest, hrest, -, rfl⟩ := of_consume h
    exact ⟨ht, rfl, hrest ▸ List.suffix_cons _ _, fun _ => by simp [hrest, Extent.whole]⟩
  · obtain ⟨rest, hrest, rfl, rfl⟩ := of_consume h
    simp [Parse.consume, bind_apply, Parse.check, Parse.advance, Cursor.advance, Cursor.beside,
      hrest]

theorem fail (fault : ParseFault) {q : Parse α} : ReadsBeside r x (Parse.fail fault) q :=
  of_never fun _ _ _ _ h => by cases h

theorem tooDeep {q : Parse α} : ReadsBeside r x Parse.tooDeep q :=
  of_never fun _ _ _ _ h => by cases h

theorem report (e : ParseError) {q : Parse Unit} : ReadsBeside r x (Parse.report e) q :=
  of_never fun c s a t h ht => by
    unfold Parse.report at h
    split at h
    · cases h
      simp [Cursor.record] at ht
    · cases h

end Primitives

section Contexts

theorem within (change : Context → Context) (hp : ReadsBeside r x p p') :
    ReadsBeside r x (Parse.within change p) (Parse.within change p') where
  reach h ht := hp.reach h ht
  beside final h ht hend := hp.beside final h ht hend

theorem nestedIn
    (limit : Nat)
    (level : Context → Nat)
    (enter : Context → Context)
    (hp : ReadsBeside r x p p') :
    ReadsBeside r x (fun c s => if limit ≤ level c then Parse.tooDeep c s else p (enter c) s)
      (fun c s => if limit ≤ level c then Parse.tooDeep c s else p' (enter c) s) where
  reach h ht := by
    split at h
    · cases h
    · exact hp.reach h ht
  beside final h ht hend := by
    split at h
    · cases h
    · next hlevel =>
        simp only [if_neg hlevel]
        exact hp.beside final h ht hend

theorem context
    {f f' : Context → Parse α}
    (hf : ∀ c, ReadsBeside r x (f c) (f' c)) :
    ReadsBeside r x (Parse.context >>= f) (Parse.context >>= f') where
  reach {c _ _ _} h ht := (hf c).reach h ht
  beside {c _ _ _ _} final h ht hend := (hf c).beside final h ht hend

end Contexts

section Repetition

/-- A repetition in which every turn takes a token is not cut short by the number of tokens that
bounds it, so a greater bound makes no difference. -/
theorem repeatWhile_bounded
    {σ ρ : Type}
    [Relocatable σ]
    [Relocatable ρ]
    {test test' : Parse Bool}
    {turn turn' : σ → Parse (σ × Bool)}
    {result result' : σ → ρ}
    (htest : ReadsBeside r .part test test')
    (hturn : ∀ a, ReadsBeside r .item (turn a) (turn' (move r a)))
    (hresult : ∀ a, result' (move r a) = move r (result a))
    {c : Context}
    {t : Cursor}
    {b : ρ}
    (ht : t.errors = [])
    (tokens tokens' : List Token)
    {s : Cursor}
    {a : σ}
    (h : Parse.repeatWhile test turn result tokens a c s = .ok b t) :
    Reach .part s t ∧ ∀ {extra : List Token} (final : Token), t.rest ≠ [] →
      s.rest.length < tokens.length → tokens.length ≤ tokens'.length →
      Parse.repeatWhile test' turn' result' tokens' (move r a) c (s.beside r extra final) =
        .ok (move r b) (t.beside r extra final) := by
  induction tokens generalizing tokens' s a with
  | nil =>
      cases h
      exact ⟨.refl ht rfl, fun _ _ hlength => absurd hlength (Nat.not_lt_zero _)⟩
  | cons token tokens ih =>
      obtain ⟨holds, s₁, htesting, h⟩ := bind_eq_ok.mp h
      cases holds with
      | false =>
          cases h
          have hreach := htest.reach htesting ht
          refine ⟨hreach, fun {extra} final hrest _ hlength => ?_⟩
          obtain ⟨token', tokens', rfl⟩ := List.exists_cons_of_length_pos
            (Nat.lt_of_lt_of_le (Nat.succ_pos _) hlength)
          rw [Parse.repeatWhile, bind_apply, htest.beside final htesting ht (.inl hrest), hresult]
          rfl
      | true =>
          obtain ⟨⟨next, more⟩, s₂, hturning, h⟩ := bind_eq_ok.mp h
          have hlater : Reach .part s₂ t ∧ ∀ {extra : List Token} (final : Token), t.rest ≠ [] →
              s₂.rest.length < tokens.length → ∀ tokens', tokens.length ≤ tokens'.length →
              (if more then Parse.repeatWhile test' turn' result' tokens' (move r next)
                else Pure.pure (result' (move r next))) c (s₂.beside r extra final) =
              .ok (move r b) (t.beside r extra final) := by
            cases more with
            | true =>
                exact ⟨(ih [] h).1, fun final hrest hlength tokens' hle =>
                  (ih tokens' h).2 final hrest hlength hle⟩
            | false =>
                cases h
                exact ⟨.refl ht rfl, fun _ _ _ _ _ => by rw [hresult]; rfl⟩
          obtain ⟨hreach, hrun⟩ := hlater
          have hturned := (hturn a).reach hturning hreach.errors
          have htested := htest.reach htesting hturned.errors
          refine ⟨(htested.trans (hturned.trans hreach)).within ⟨Nat.zero_le _, by decide⟩,
            fun {extra} final hrest hlength hle => ?_⟩
          have hne₂ : s₂.rest ≠ [] := fun hnil => hrest (List.suffix_nil.mp (hnil ▸ hreach.suffix))
          have hne₁ : s₁.rest ≠ [] := fun hnil => hne₂ (List.suffix_nil.mp (hnil ▸ hturned.suffix))
          have htakes := hturned.takes (.inl hne₂)
          have hshort := htested.suffix.length_le
          simp only [Extent.item] at htakes
          obtain ⟨token', tokens', rfl⟩ := List.exists_cons_of_length_pos
            (Nat.lt_of_lt_of_le (Nat.succ_pos _) hle)
          simp only [List.length_cons] at hlength hle
          rw [Parse.repeatWhile, bind_apply,
            htest.beside final htesting hturned.errors (.inl hne₁)]
          change (turn' (move r a) >>= _) c (s₁.beside r extra final) = _
          rw [bind_apply, (hturn a).beside final hturning hreach.errors (.inl hne₂)]
          exact hrun final hrest (by omega) tokens' (by omega)

theorem repeatWhile
    {σ ρ : Type}
    [Relocatable σ]
    [Relocatable ρ]
    {test test' : Parse Bool}
    {turn turn' : σ → Parse (σ × Bool)}
    {result result' : σ → ρ}
    {a : σ}
    (htest : ReadsBeside r .part test test')
    (hturn : ∀ a, ReadsBeside r .item (turn a) (turn' (move r a)))
    (hresult : ∀ a, result' (move r a) = move r (result a)) :
    ReadsBeside r .part
      (budget >>= fun tokens => Parse.repeatWhile test turn result tokens a)
      (budget >>= fun tokens => Parse.repeatWhile test' turn' result' tokens (move r a)) where
  reach {_ s _ _} h ht :=
    (repeatWhile_bounded htest hturn hresult ht (s.final :: s.rest) [] h).1
  beside {_ s _ _ extra} final h ht hend :=
    (repeatWhile_bounded htest hturn hresult ht (s.final :: s.rest)
      (final :: (s.beside r extra final).rest) h).2 final
      (hend.resolve_right (by simp [Extent.part])) (Nat.lt_succ_self _) (by simp [Cursor.beside])

end Repetition

section Arrows

theorem startsArrow_append {expectsName : Bool} {tokens : List Token} (extra : List Token)
    (h : Parse.startsArrow expectsName tokens = true) :
    Parse.startsArrow expectsName (tokens.map (move r) ++ extra) = true := by
  fun_induction Parse.startsArrow expectsName tokens with
  | case1 => cases h
  | case2 expectsName token rest hclose =>
      cases rest with
      | nil => simp at h
      | cons next rest => simpa [Parse.startsArrow, hclose] using h
  | case3 token rest hclose ih =>
      simp only [Bool.and_eq_true] at h
      simp [Parse.startsArrow, hclose, h.1, ih h.2]
  | case4 expectsName token rest hclose hname ih =>
      simp only [Bool.and_eq_true] at h
      simp [Parse.startsArrow, hclose, hname, h.1, ih h.2]

/-- The search for an arrow ends at the first closing parenthesis at the latest. -/
theorem startsArrow_closed
    {close next : Token}
    (hclose : close.kind = .rightParen)
    (expectsName : Bool)
    (before rest extra : List Token) :
    Parse.startsArrow expectsName ((before ++ close :: next :: rest).map (move r) ++ extra) =
      Parse.startsArrow expectsName (before ++ close :: next :: rest) := by
  induction before generalizing expectsName with
  | nil => simp [Parse.startsArrow, hclose]
  | cons token before ih =>
      simp only [List.cons_append, List.map_cons, Parse.startsArrow, Token.kind_move, ih]
      split
      · cases before <;> simp
      · rfl

theorem startsArrow
    {q q' : Parse α}
    (expected : String)
    (hp : ReadsBeside r .item p p')
    (hq : ReadsBeside r .item q q') :
    let group (q : Parse α) : Parse α := do
      let a ← q
      let _ ← require .rightParen expected
      return a
    ReadsBeside r .item
      (do if Parse.startsArrow true ((← remaining).drop 1) then p else group q)
      (do if Parse.startsArrow true ((← remaining).drop 1) then p' else group q') := by
  intro group
  have hclosing (a : α) : ReadsBeside r (Extent.whole.andThen .tail)
      (do let _ ← require .rightParen expected; return a)
      (do let _ ← require .rightParen expected; return move r a) :=
    (consume .rightParen expected none).bind fun _ => pure rfl
  have hgroup : ReadsBeside r .item (group q) (group q') :=
    (hq.bind hclosing).within_extent ⟨by decide, by decide⟩
  have apply_eq (p q : Parse α) (c : Context) (s : Cursor) :
      (do if Parse.startsArrow true ((← remaining).drop 1) then p else q) c s =
        if Parse.startsArrow true (s.rest.drop 1) then p c s else q c s := by
    change (if Parse.startsArrow true (s.rest.drop 1) then p else q) c s = _
    split <;> rfl
  refine ⟨fun {c s t a} h ht => ?_, fun {c s t a extra} final h ht hend => ?_⟩
  · rw [apply_eq] at h
    split at h
    · exact hp.reach h ht
    · exact hgroup.reach h ht
  · rw [apply_eq] at h ⊢
    split at h
    · next harrow =>
        have hnil : s.rest ≠ [] := fun hnil => by simp [hnil, Parse.startsArrow] at harrow
        have hrest : (s.beside r extra final).rest.drop 1 =
            (s.rest.drop 1).map (move r) ++ extra := by
          have hlong : 1 ≤ (s.rest.map (move r)).length := by
            simpa using Nat.succ_le_of_lt (List.length_pos_iff.mpr hnil)
          rw [Cursor.beside, List.drop_append_of_le_length hlong, List.map_drop]
        rw [hrest, startsArrow_append extra harrow]
        exact hp.beside final h ht hend
    · next harrow =>
        -- What is grouped ends with a closing parenthesis, and a token follows.
        obtain ⟨value, s₁, hread, hclosing⟩ := bind_eq_ok.mp h
        obtain ⟨close, s₂, hclose, hdone⟩ := bind_eq_ok.mp hclosing
        cases hdone
        obtain ⟨rest, hrest₁, hkind, rfl⟩ := of_consume hclose
        have hreach := hq.reach hread ht
        have hnext := hend.resolve_right (by simp [Extent.item])
        obtain ⟨next, rest, rfl⟩ := List.exists_cons_of_ne_nil hnext
        have htakes := hreach.takes (.inl (by simp [hrest₁]))
        obtain ⟨used, hused⟩ := hreach.suffix
        rw [← hused, List.length_append] at htakes
        simp only [Extent.item] at htakes
        obtain ⟨first, used, rfl⟩ := List.exists_cons_of_length_pos (l := used) (by omega)
        have hsame : Parse.startsArrow true ((s.beside r extra final).rest.drop 1) =
            Parse.startsArrow true (s.rest.drop 1) := by
          simp only [Cursor.beside, ← hused, hrest₁, List.cons_append, List.map_cons,
            List.drop_succ_cons, List.drop_zero]
          exact startsArrow_closed hkind true used rest extra
        rw [hsame, if_neg harrow]
        exact hgroup.beside final h ht hend

end Arrows

/-- There is nothing to recover from where no error is found. -/
theorem of_recovering
    {p : Parse Stmt}
    {c : Context}
    {s t : Cursor}
    {stmt? : Option Stmt}
    (h : Parse.recovering p c s = .ok stmt? t)
    (ht : t.errors = []) :
    ∃ stmt, stmt? = some stmt ∧ p c s = .ok stmt t := by
  unfold Parse.recovering at h
  split at h
  · next stmt s₁ hread =>
      cases h
      exact ⟨stmt, rfl, hread⟩
  · cases h
  · next e s₁ hread =>
      unfold Parse.report at h
      split at h
      · next hreport =>
          split at hreport
          · cases h
            cases hreport
            simp [Cursor.errors_synchronize, Cursor.record] at ht
          · cases hreport
      · cases h
      · cases h

theorem recovering
    {p p' : Parse Stmt}
    (hp : ReadsBeside r .whole p p') :
    ReadsBeside r .whole (Parse.recovering p) (Parse.recovering p') where
  reach h ht := by
    obtain ⟨stmt, -, hread⟩ := of_recovering h ht
    exact hp.reach hread ht
  beside final h ht hend := by
    obtain ⟨stmt, rfl, hread⟩ := of_recovering h ht
    unfold Parse.recovering
    rw [hp.beside final hread ht hend]
    rfl

end ReadsBeside

/-- The readers of a text and of a longer one that begins with it, relocated. -/
def locality (r : Relocation) : Comparison where
  relocation := r
  reads := ReadsBeside r

theorem locality_lawful {r : Relocation} (hr : r.Merges) : (locality r).Lawful where
  merges := hr
  within_extent := .within_extent
  pure := .pure
  bind := .bind
  context hf _ := .context hf
  peek := .peek
  previous := .previous
  atEnd := .atEnd
  check := .check
  check_continues := .check_continues
  checkNext := .checkNext
  advance := .advance
  consume := .consume
  fail fault := .fail fault
  report e := .report e
  tooDeep := .tooDeep
  within _ := .within _
  nested := .nestedIn maxNesting (·.depth) _
  nestedArrow := .nestedIn maxArrowNesting (·.arrows) _
  repeatWhile := .repeatWhile
  startsArrow := .startsArrow
  recovering := .recovering

end Lox.Parse
