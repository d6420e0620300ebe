import Lox.Proofs.Parse.Repetition
import Lox.Proofs.Surface.Grammar

/-!
# What readers take

`Takes s p Q` says of a reader that begins at the cursor `s` and gives up at the first error: if it
succeeds, `Q` holds of the tokens it has taken, of what it has read them as, and of the cursor
where it ends. The rules here follow the ways in which readers are built. The condition of the
second of two readers is the one of both, of which the tokens of the first are already known.
-/

namespace Lox

/-- The token has a value if it is a number or a string. -/
def Token.Valued (token : Token) : Prop :=
  token.kind = .number ∨ token.kind = .string → token.literal.isSome = true

namespace Parse

open Surface

/-- The tokens `w` lead from one cursor to another. -/
structure Passes (s : Cursor) (w : List Token) (t : Cursor) : Prop where
  rest : s.rest = w ++ t.rest
  previous : t.previous = w.getLastD s.previous
  final : t.final = s.final

/-- The tokens from the cursor on are as a scan finds them: the last one ends the input, and those
that stand for a value have one. -/
structure Cursor.Scanned (s : Cursor) : Prop where
  final : s.final.kind = .endOfInput
  valued : ∀ token ∈ s.rest, token.Valued

theorem Cursor.Scanned.current {s : Cursor} (h : s.Scanned) : s.current.Valued := by
  unfold Cursor.current
  cases hrest : s.rest with
  | nil => simp [Token.Valued, h.final]
  | cons token rest => exact h.valued token (by simp [hrest])

theorem Passes.scanned {s t : Cursor} {w : List Token} (h : Passes s w t) (hs : s.Scanned) :
    t.Scanned where
  final := h.final ▸ hs.final
  valued token htoken := hs.valued token (h.rest ▸ List.mem_append_right w htoken)

/-- What the reader takes from the cursor on, and how it ends, satisfies the condition. -/
structure Takes
    {α : Type}
    (s : Cursor)
    (p : Parse α)
    (Q : List Token → α → Cursor → Prop) :
    Prop where
  ends : ∀ {c : Context} {a : α} {t : Cursor},
    c.collectAll = false → s.Scanned → p c s = .ok a t →
      ∃ w, Passes s w t ∧ Q w a t

/-- Wherever the reader begins, it takes such a phrase. -/
abbrev Finds {α : Type} (p : Parse α) (Phrase : List Token → α → Prop) : Prop :=
  ∀ s, Takes s p fun w a _ => Phrase w a

namespace Passes

variable {s t u : Cursor} {v w : List Token}

theorem refl (s : Cursor) : Passes s [] s :=
  ⟨rfl, rfl, rfl⟩

theorem getLastD_append (v w : List Token) (token : Token) :
    (v ++ w).getLastD token = w.getLastD (v.getLastD token) := by
  induction v generalizing token with
  | nil => rfl
  | cons first v ih => rw [List.cons_append, List.getLastD_cons, List.getLastD_cons, ih]

theorem trans (h : Passes s v t) (h' : Passes t w u) : Passes s (v ++ w) u where
  rest := by rw [h.rest, h'.rest, List.append_assoc]
  previous := by rw [h'.previous, h.previous, getLastD_append]
  final := h'.final.trans h.final

end Passes

namespace Takes

variable {α β : Type} {s : Cursor} {p : Parse α} {f : α → Parse β}
variable {Q R : List Token → α → Cursor → Prop} {S : List Token → β → Cursor → Prop}

section Rules

theorem of_never (h : ∀ c a t, c.collectAll = false → p c s ≠ .ok a t) : Takes s p Q :=
  ⟨fun hc _ hp => absurd hp (h _ _ _ hc)⟩

theorem pure {a : α} (h : Q [] a s) : Takes s (Pure.pure a) Q where
  ends _ _ hp := by
    cases hp
    exact ⟨[], .refl s, h⟩

theorem bind
    (hp : Takes s p R)
    (hf : ∀ w a t, Passes s w t → R w a t → Takes t (f a) fun v b u => S (w ++ v) b u) :
    Takes s (p >>= f) S where
  ends hc hs h := by
    obtain ⟨a, t, hpa, hfa⟩ := bind_eq_ok.mp h
    obtain ⟨w, hpass, hR⟩ := hp.ends hc hs hpa
    obtain ⟨v, hpass', hS⟩ := (hf w a t hpass hR).ends hc (hpass.scanned hs) hfa
    exact ⟨w ++ v, hpass.trans hpass', hS⟩

theorem mono (hp : Takes s p R) (h : ∀ w a t, Passes s w t → R w a t → Q w a t) : Takes s p Q where
  ends hc hscanned hpa := by
    obtain ⟨w, hpass, hR⟩ := hp.ends hc hscanned hpa
    exact ⟨w, hpass, h w _ _ hpass hR⟩

/-- What a scan is known to give may be used of the tokens at the cursor. -/
theorem scanned (hp : s.Scanned → Takes s p Q) : Takes s p Q :=
  ⟨fun hc hs h => (hp hs).ends hc hs h⟩

/-- The span from a token that was just read covers the phrase that the token begins. -/
theorem spanned
    {first : Token}
    (hs : s.previous = first)
    (hp : Takes s p fun w a t =>
      first.span.merge t.previous.span = first.spanTo ([first] ++ w) → Q w a t) :
    Takes s p Q where
  ends hc hscanned hpa := by
    obtain ⟨w, hpass, hQ⟩ := hp.ends hc hscanned hpa
    refine ⟨w, hpass, hQ ?_⟩
    rw [hpass.previous, hs, Token.spanTo, List.singleton_append, List.getLastD_cons]

end Rules

section Primitives

theorem context {f : Context → Parse β} (hf : ∀ c, Takes s (f c) S) :
    Takes s (Parse.context >>= f) S :=
  ⟨fun {c _ _} hc hscanned h => (hf c).ends hc hscanned h⟩

theorem peek {f : Token → Parse β} (hf : Takes s (f s.current) S) : Takes s (Parse.peek >>= f) S :=
  ⟨fun hc hscanned h => hf.ends hc hscanned h⟩

theorem remaining {f : List Token → Parse β} (hf : Takes s (f s.rest) S) :
    Takes s (Parse.remaining >>= f) S :=
  ⟨fun hc hscanned h => hf.ends hc hscanned h⟩

theorem budget {f : List Token → Parse β} (hf : Takes s (f (s.final :: s.rest)) S) :
    Takes s (Parse.budget >>= f) S :=
  ⟨fun hc hscanned h => hf.ends hc hscanned h⟩

theorem previous {f : Token → Parse β} (hf : Takes s (f s.previous) S) :
    Takes s (Parse.previous >>= f) S :=
  ⟨fun hc hscanned h => hf.ends hc hscanned h⟩

theorem spanFrom {first : Token} {f : Span → Parse β}
    (hf : Takes s (f (first.span.merge s.previous.span)) S) :
    Takes s (Parse.spanFrom first >>= f) S :=
  ⟨fun hc hscanned h => hf.ends hc hscanned h⟩

/-- A token that does not end the input is stepped over. -/
theorem advance (hs : s.current.kind ≠ .endOfInput) :
    Takes s Parse.advance fun w token _ => w = [s.current] ∧ token = s.current where
  ends _ hscanned h := by
    cases h
    cases hrest : s.rest with
    | nil =>
        rw [Cursor.current, hrest, List.headD_nil] at hs
        exact absurd hscanned.final hs
    | cons token rest =>
        refine ⟨[token], ⟨?_, ?_, ?_⟩, ?_⟩ <;> simp [Cursor.advance, Cursor.current, hrest]

theorem kindAt {kind : TokenKind} {f : Bool → Parse β}
    (hf : Takes s (f (s.rest.head?.map (·.kind) == some kind)) S) :
    Takes s (Parse.check kind >>= f) S :=
  ⟨fun hc hscanned h => hf.ends hc hscanned h⟩

theorem checkNext {kind : TokenKind} {f : Bool → Parse β}
    (hf : Takes s (f (s.rest[1]?.map (·.kind) == some kind)) S) :
    Takes s (Parse.checkNext kind >>= f) S :=
  ⟨fun hc hscanned h => hf.ends hc hscanned h⟩

/-- The token at the cursor is of the kind or not. -/
theorem check
    {kind : TokenKind}
    {f : Bool → Parse β}
    (hyes : ∀ word : Word kind, s.rest.head? = some word.1 → Takes s (f true) S)
    (hno : (∀ token ∈ s.rest.head?, token.kind ≠ kind) → Takes s (f false) S) :
    Takes s (Parse.check kind >>= f) S := by
  refine kindAt ?_
  cases hhead : s.rest.head? with
  | none => exact hno (by simp [hhead])
  | some token =>
      by_cases hkind : token.kind = kind
      · rw [Option.map_some, hkind, beq_self_eq_true]
        exact hyes ⟨token, hkind⟩ hhead
      · rw [Option.map_some, beq_false_of_ne (by simpa using hkind)]
        exact hno (by simpa [hhead] using hkind)

theorem atEnd : Takes s Parse.atEnd fun w _ _ => w = [] where
  ends _ _ h := by
    cases h
    exact ⟨[], .refl s, rfl⟩

/-- Step over a token that has been looked at. -/
theorem advance_word {kind : TokenKind} (word : Word kind) (hs : s.rest.head? = some word.1) :
    Takes s Parse.advance fun w token _ => w = [word.1] ∧ token = word.1 where
  ends _ _ h := by
    cases h
    obtain ⟨rest, hrest⟩ := List.head?_eq_some_iff.mp hs
    refine ⟨[word.1], ⟨?_, ?_, ?_⟩, ?_⟩ <;> simp [Cursor.advance, hrest]

theorem accept (kind : TokenKind) :
    Takes s (Parse.accept kind) fun w found t =>
      (found = true ∧ ∃ word : Word kind, w = [word.1]) ∨
        (found = false ∧ w = [] ∧ ∀ token ∈ t.rest.head?, token.kind ≠ kind) := by
  refine check (fun word hhead => ?_) fun hother => ?_
  · refine (advance_word word hhead).bind ?_
    rintro _ _ t - ⟨rfl, rfl⟩
    exact pure (.inl ⟨rfl, word, rfl⟩)
  · exact pure (.inr ⟨rfl, rfl, hother⟩)

theorem fail (fault : ParseFault) : Takes s (Parse.fail fault) Q :=
  of_never fun _ _ _ _ h => by cases h

theorem tooDeep : Takes s Parse.tooDeep Q :=
  of_never fun _ _ _ _ h => by cases h

theorem consume (kind : TokenKind) (expected : String) (reason : Option String) :
    Takes s (Parse.consume kind expected reason) fun w token _ =>
      ∃ word : Word kind, w = [word.1] ∧ token = word.1 := by
  refine check (fun word hhead => ?_) fun _ => fail _
  exact (advance_word word hhead).mono fun _ _ _ _ h => ⟨word, h⟩

theorem require (kind : TokenKind) (expected : String) :
    Takes s (Parse.require kind expected) fun w token _ =>
      ∃ word : Word kind, w = [word.1] ∧ token = word.1 :=
  consume kind expected none

/-- A reader that gives up at the first error does not go on behind one. -/
theorem report (e : ParseError) {f : Unit → Parse β} : Takes s (Parse.report e >>= f) S where
  ends hc _ h := by
    obtain ⟨_, _, hreport, -⟩ := bind_eq_ok.mp h
    rw [Parse.report, hc] at hreport
    cases hreport

theorem reportIf
    {isMisplaced : Bool}
    {construct : Misplaced}
    {token : Token}
    {f : Unit → Parse β}
    (hf : Takes s (f ()) S) :
    Takes s (Parse.reportIf isMisplaced construct token >>= f) S := by
  cases isMisplaced with
  | true => exact report _
  | false => exact hf

end Primitives

section Contexts

theorem within
    {change : Context → Context}
    (hchange : ∀ c, (change c).collectAll = c.collectAll)
    (hp : Takes s p Q) :
    Takes s (Parse.within change p) Q :=
  ⟨fun {c _ _} hc hscanned h => hp.ends ((hchange c).trans hc) hscanned h⟩

/-- One level deeper, if the limit allows it. -/
theorem nestedIn
    (limit : Nat)
    (level : Context → Nat)
    {enter : Context → Context}
    (henter : ∀ c, (enter c).collectAll = c.collectAll)
    (hp : Takes s p Q) :
    Takes s (fun c s => if limit ≤ level c then Parse.tooDeep c s else p (enter c) s) Q where
  ends {c a t} hc hscanned h := by
    split at h
    · cases h
    · exact hp.ends ((henter c).trans hc) hscanned h

theorem nested (hp : Takes s p Q) : Takes s (Parse.nested p) Q :=
  nestedIn maxNesting (·.depth) (fun _ => rfl) hp

theorem nestedArrow (hp : Takes s p Q) : Takes s (Parse.nestedArrow p) Q :=
  nestedIn maxArrowNesting (·.arrows) (fun _ => rfl) hp

/-- There is nothing to recover from. -/
theorem recovering {p : Parse Stmt} {Q : List Token → Stmt → Cursor → Prop} (hp : Takes s p Q) :
    Takes s (Parse.recovering p) fun w stmt? t => ∃ stmt, stmt? = some stmt ∧ Q w stmt t where
  ends {c stmt? t} hc hscanned h := by
    unfold Parse.recovering at h
    split at h
    · next stmt s₁ hread =>
        cases h
        obtain ⟨w, hpass, hQ⟩ := hp.ends hc hscanned hread
        exact ⟨w, hpass, stmt, rfl, hQ⟩
    · cases h
    · simp only [Parse.report, hc] at h
      cases h

end Contexts

end Takes

section Lists

variable {α : Type} {Phrase : List Token → α → Prop} {item : Parse α} {s : Cursor}

theorem takes_manyUntil
    {stop : Parse Bool}
    (hstop : Finds stop fun w _ => w = [])
    (hitem : Finds item Phrase)
    (left : List Token)
    (done : List α) :
    Takes s (manyUntil stop item left done) fun w as _ =>
      ∃ new, as = done.reverse ++ new ∧ Many Phrase w new := by
  induction left generalizing s done with
  | nil => exact .pure ⟨[], by simp, .nil⟩
  | cons _ left ih =>
      refine (hstop s).bind ?_
      rintro _ stopped t - rfl
      cases stopped with
      | true => exact .pure ⟨[], by simp, .nil⟩
      | false =>
          refine (hitem t).bind fun us a u _ ha => ?_
          refine (ih (a :: done)).mono ?_
          rintro vs _ _ - ⟨new, rfl, hnew⟩
          exact ⟨a :: new, by simp, by simpa using Many.cons ha hnew⟩

theorem takes_listBefore
    (hitem : Finds item Phrase)
    (close : TokenKind)
    (left : List Token)
    (done : List α) :
    Takes s (listBefore close item left done) fun w as _ =>
      ∃ new, as = done.reverse ++ new ∧ Listed Phrase w new := by
  induction left generalizing s done with
  | nil => exact .pure ⟨[], by simp, .none⟩
  | cons _ left ih =>
      refine .check (fun _ _ => .pure ⟨[], by simp, .none⟩) fun _ => ?_
      refine (hitem s).bind fun us a t _ ha => ?_
      refine (Takes.accept .comma).bind ?_
      rintro _ _ u - (⟨rfl, comma, rfl⟩ | ⟨rfl, rfl, -⟩)
      · refine (ih (a :: done)).mono ?_
        rintro vs _ _ - ⟨new, rfl, hnew⟩
        exact ⟨a :: new, by simp, by simpa using hnew.cons ha comma⟩
      · exact .pure ⟨[a], by simp, by simpa using Listed.some (.one ha)⟩

/-- Every comma takes a token, so the number of tokens does not cut the list short. -/
theorem takes_countedList
    (hitem : Finds item Phrase)
    (what : Counted)
    (left : List Token)
    (done : List α)
    (hleft : s.rest.length < left.length) :
    Takes s (countedList what item left done) fun w as _ =>
      ∃ new, as = done.reverse ++ new ∧ Separated Phrase w new := by
  induction left generalizing s done with
  | nil => exact absurd hleft (Nat.not_lt_zero _)
  | cons _ left ih =>
      have hread : Takes s (commaTurn item done >>= fun next =>
          if next.2 then countedList what item left next.1 else return next.1.reverse)
          fun w as _ => ∃ new, as = done.reverse ++ new ∧ Separated Phrase w new := by
        simp only [commaTurn, bind_assoc, pure_bind]
        refine (hitem s).bind fun us a t hpass ha => ?_
        refine (Takes.accept .comma).bind ?_
        rintro _ _ u hpass' (⟨rfl, comma, rfl⟩ | ⟨rfl, rfl, -⟩)
        · have hlength : s.rest.length = us.length + (1 + u.rest.length) := by
            rw [hpass.rest, hpass'.rest]
            simp [Nat.add_comm]
          refine (ih (a :: done) (by simp only [List.length_cons] at hleft; omega)).mono ?_
          rintro vs _ _ - ⟨new, rfl, hnew⟩
          exact ⟨a :: new, by simp, by simpa using Separated.cons comma ha hnew⟩
        · exact .pure ⟨[a], by simp, by simpa using Separated.one ha⟩
      simp only [commaTurn, bind_assoc, pure_bind] at hread
      rw [countedList]
      split
      · exact .peek (.report _)
      · exact hread

theorem takes_parenthesised (hitem : Finds item Phrase) (what : Counted) :
    Finds (parenthesised what item) (Enumerated Phrase) := by
  intro s
  refine .check (fun _ _ => .pure .none) fun _ => .budget ?_
  refine (takes_countedList hitem what _ [] (Nat.lt_succ_self _)).mono ?_
  rintro w _ _ - ⟨new, rfl, hnew⟩
  exact .some hnew

theorem takes_parameters : Finds parameters (Enumerated Name) := by
  refine takes_parenthesised (fun s => ?_) .parameters
  refine (Takes.require .identifier _).bind ?_
  rintro _ _ t - ⟨name, rfl, rfl⟩
  exact .pure (.mk name)

end Lists

end Parse

end Lox
