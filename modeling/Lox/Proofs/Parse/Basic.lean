import Lox.Proofs.Parse.Repetition
import Lox.Proofs.Tree.Placement

/-!
# What readers read

`Reads k p Q` says of the reader `p` that, inside the constructs `k`, it reads only what satisfies
`Q`, unless it finds an error. The errors need not be its own: once there is one, nothing is
claimed of what is read later, since such a parse yields no program. The rules follow the ways in
which readers are built.
-/

namespace Lox

/-- If the token is an identifier, it is no reserved word. -/
def Token.Unreserved (token : Token) : Prop :=
  token.kind = .identifier → ¬IsReserved token.lexeme

namespace Parse

/-- What is around the construct that is being read. -/
def Context.enclosure (c : Context) : Enclosure :=
  ⟨c.inFunction, c.inLoop, c.classHasSuperclass⟩

namespace Cursor

/-- No reserved word among the tokens that are left is an identifier. -/
def Unreserved (s : Cursor) : Prop :=
  (∀ token ∈ s.rest, token.Unreserved) ∧ s.final.Unreserved

variable {s : Cursor}

theorem Unreserved.current (h : s.Unreserved) : s.current.Unreserved := by
  unfold Cursor.current
  cases hrest : s.rest with
  | nil => exact h.2
  | cons token rest => exact h.1 token (by simp [hrest])

theorem Unreserved.advance (h : s.Unreserved) : s.advance.Unreserved := by
  unfold Cursor.advance
  cases hrest : s.rest with
  | nil => exact h
  | cons token rest => exact ⟨fun t ht => h.1 t (by simp [hrest, ht]), h.2⟩

theorem mem_of_mem_skipToBoundary
    {token previous : Token} {tokens : List Token}
    (h : token ∈ (skipToBoundary previous tokens).2) :
    token ∈ tokens := by
  induction tokens generalizing previous with
  | nil => exact h
  | cons first rest ih =>
      unfold skipToBoundary at h
      split at h
      · exact h
      · exact List.mem_cons_of_mem _ (ih h)

theorem Unreserved.synchronize (h : s.Unreserved) : s.synchronize.Unreserved :=
  ⟨fun token ht => h.advance.1 token (mem_of_mem_skipToBoundary ht), h.advance.2⟩

end Cursor

/-- How reading that began at the cursor `s` may end: what was read satisfies `Q` unless there is
an error, and there is still an error if there was one before. -/
def Ends {α : Type} (s : Cursor) (Q : α → Prop) : Parsed α → Prop
  | .ok a s' => s'.Unreserved ∧ (s'.errors = [] → s.errors = [] ∧ Q a)
  | .fail _ s' => s'.Unreserved
  | .abort _ => True

/-- Inside the constructs `k`, the reader reads what satisfies `Q`, unless there is an error. -/
def Reads {α : Type} (k : Enclosure) (p : Parse α) (Q : α → Prop) : Prop :=
  ∀ (c : Context) (s : Cursor), c.enclosure = k → s.Unreserved → Ends s Q (p c s)

namespace Reads

variable {α β : Type} {k : Enclosure} {p : Parse α} {Q Q' : α → Prop}

section Rules

theorem pure {a : α} (h : Q a) : Reads k (pure a) Q :=
  fun _ _ _ hs => ⟨hs, fun he => ⟨he, h⟩⟩

theorem bind
    {f : α → Parse β} {R : β → Prop}
    (hp : Reads k p Q)
    (hf : ∀ a, Reads k (f a) fun b => Q a → R b) :
    Reads k (p >>= f) R := by
  intro c s hc hs
  have hfirst := hp c s hc hs
  change Ends s R (match p c s with
    | .ok a s => f a c s
    | .fail e s => .fail e s
    | .abort errors => .abort errors)
  cases hps : p c s with
  | fail e s' =>
      rw [hps] at hfirst
      exact hfirst
  | abort errors => trivial
  | ok a s' =>
      rw [hps] at hfirst
      have hsecond := hf a c s' hc hfirst.1
      simp only
      cases hfs : f a c s' with
      | fail e s'' =>
          rw [hfs] at hsecond
          exact hsecond
      | abort errors => trivial
      | ok b s'' =>
          rw [hfs] at hsecond
          refine ⟨hsecond.1, fun he => ?_⟩
          obtain ⟨he', hR⟩ := hsecond.2 he
          obtain ⟨he'', hQ⟩ := hfirst.2 he'
          exact ⟨he'', hR hQ⟩

theorem weaken (hp : Reads k p Q) (h : ∀ a, Q a → Q' a) : Reads k p Q' := by
  intro c s hc hs
  have hread := hp c s hc hs
  cases hps : p c s with
  | fail e s' =>
      rw [hps] at hread
      exact hread
  | abort errors => trivial
  | ok a s' =>
      rw [hps] at hread
      exact ⟨hread.1, fun he => ⟨(hread.2 he).1, h a (hread.2 he).2⟩⟩

theorem map
    {f : α → β} {R : β → Prop}
    (hp : Reads k p Q)
    (h : ∀ a, Q a → R (f a)) :
    Reads k (f <$> p) R :=
  bind hp fun a => pure (h a)

end Rules

section Primitives

theorem context : Reads k Parse.context fun c => c.enclosure = k :=
  fun _ _ hc hs => ⟨hs, fun he => ⟨he, hc⟩⟩

theorem peek : Reads k Parse.peek Token.Unreserved :=
  fun _ _ _ hs => ⟨hs, fun he => ⟨he, hs.current⟩⟩

theorem previous : Reads k Parse.previous fun _ => True :=
  fun _ _ _ hs => ⟨hs, fun he => ⟨he, trivial⟩⟩

theorem remaining : Reads k Parse.remaining fun _ => True :=
  fun _ _ _ hs => ⟨hs, fun he => ⟨he, trivial⟩⟩

theorem budget : Reads k Parse.budget fun _ => True :=
  fun _ _ _ hs => ⟨hs, fun he => ⟨he, trivial⟩⟩

theorem atEnd : Reads k Parse.atEnd fun _ => True :=
  fun _ _ _ hs => ⟨hs, fun he => ⟨he, trivial⟩⟩

theorem check (kind : TokenKind) : Reads k (Parse.check kind) fun _ => True :=
  fun _ _ _ hs => ⟨hs, fun he => ⟨he, trivial⟩⟩

theorem checkNext (kind : TokenKind) : Reads k (Parse.checkNext kind) fun _ => True :=
  fun _ _ _ hs => ⟨hs, fun he => ⟨he, trivial⟩⟩

theorem advance : Reads k Parse.advance fun _ => True :=
  fun _ s _ hs => ⟨hs.advance, fun he => ⟨by simpa using he, trivial⟩⟩

theorem accept (kind : TokenKind) : Reads k (Parse.accept kind) fun _ => True := by
  refine bind (check kind) fun found => ?_
  split
  · exact bind advance fun _ => pure fun _ _ => trivial
  · exact pure fun _ => trivial

theorem fail (fault : ParseFault) : Reads k (Parse.fail fault) Q :=
  fun _ _ _ hs => hs

theorem tooDeep : Reads k Parse.tooDeep Q :=
  fun _ _ _ _ => trivial

/-- A token that is read because of its kind. -/
theorem consume (kind : TokenKind) (expected : String) (reason : Option String) :
    Reads k (Parse.consume kind expected reason) fun token =>
      token.kind = kind ∧ token.Unreserved := by
  intro c s hc hs
  change Ends s _ ((if (s.rest.head?.map (·.kind)) == some kind then Parse.advance
    else Parse.fail (.expectedToken expected reason)) c s)
  split
  · next hkind =>
      refine ⟨hs.advance, fun he => ⟨by simpa using he, ?_⟩⟩
      cases hrest : s.rest with
      | nil => simp [hrest] at hkind
      | cons token rest =>
          have htoken : token.kind = kind := by simpa [hrest] using hkind
          simp only [Cursor.advance, hrest]
          exact ⟨htoken, hs.1 token (by simp [hrest])⟩
  · exact hs

theorem require (kind : TokenKind) (expected : String) :
    Reads k (Parse.require kind expected) fun token => token.kind = kind ∧ token.Unreserved :=
  consume kind expected none

/-- A name that is read is no reserved word. -/
theorem requireName (expected : String) :
    Reads k (Parse.require .identifier expected) fun token => ¬IsReserved token.lexeme :=
  (require .identifier expected).weaken fun _ h => h.2 h.1

/-- After an error has been recorded nothing is claimed. -/
theorem report (e : ParseError) : Reads k (Parse.report e) fun _ => False := by
  intro c s _ hs
  unfold Parse.report
  split
  · exact ⟨hs, fun he => by simp [Cursor.record] at he⟩
  · trivial

theorem reportIf (isMisplaced : Bool) (construct : Misplaced) (token : Token) :
    Reads k (Parse.reportIf isMisplaced construct token) fun _ => isMisplaced = false := by
  cases isMisplaced with
  | true => exact (report _).weaken fun _ h => h.elim
  | false => exact pure rfl

theorem spanFrom (start : Token) : Reads k (Parse.spanFrom start) fun _ => True :=
  bind previous fun _ => pure fun _ => trivial

end Primitives

section Contexts

theorem within
    {l : Enclosure} {change : Context → Context}
    (hp : Reads l p Q)
    (hchange : ∀ c : Context, c.enclosure = k → (change c).enclosure = l) :
    Reads k (Parse.within change p) Q :=
  fun c s hc hs => hp (change c) s (hchange c hc) hs

theorem nested (hp : Reads k p Q) : Reads k (Parse.nested p) Q := by
  intro c s hc hs
  unfold Parse.nested
  by_cases hdepth : maxNesting ≤ c.depth
  · simp only [hdepth, if_true]
    exact tooDeep (Q := Q) c s hc hs
  · simp only [hdepth, if_false]
    exact hp _ s hc hs

theorem nestedArrow (hp : Reads k.enterFunction p Q) : Reads k (Parse.nestedArrow p) Q := by
  intro c s hc hs
  unfold Parse.nestedArrow
  by_cases harrows : maxArrowNesting ≤ c.arrows
  · simp only [harrows, if_true]
    exact tooDeep (Q := Q) c s hc hs
  · simp only [harrows, if_false]
    exact hp _ s (by rw [← hc]; rfl) hs

end Contexts

section Repetition

theorem manyUntil
    {stop : Parse Bool}
    (hstop : Reads k stop fun _ => True)
    (hp : Reads k p Q)
    (left : List Token)
    (done : List α) :
    Reads k (Parse.manyUntil stop p left done) fun as => (∀ a ∈ done, Q a) → ∀ a ∈ as, Q a := by
  induction left generalizing done with
  | nil => exact pure (by simp)
  | cons token left ih =>
      refine bind hstop fun stopped => ?_
      split
      · exact pure (by simp)
      · exact bind hp fun a => (ih (a :: done)).weaken (by simp_all)

theorem listBefore
    (close : TokenKind)
    (hp : Reads k p Q)
    (left : List Token)
    (done : List α) :
    Reads k (Parse.listBefore close p left done) fun as => (∀ a ∈ done, Q a) → ∀ a ∈ as, Q a := by
  induction left generalizing done with
  | nil => exact pure (by simp)
  | cons token left ih =>
      refine bind (check close) fun closed => ?_
      split
      · exact pure (by simp)
      · refine bind hp fun a => bind (accept .comma) fun more => ?_
        split
        · exact (ih (a :: done)).weaken (by simp_all)
        · exact pure (by simp_all [or_imp])

theorem countedList
    (what : Counted)
    (hp : Reads k p Q)
    (left : List Token)
    (done : List α) :
    Reads k (Parse.countedList what p left done) fun as => (∀ a ∈ done, Q a) → ∀ a ∈ as, Q a := by
  induction left generalizing done with
  | nil => exact pure (by simp)
  | cons token left ih =>
      have hitem : Reads k
          (do let a ← p
              if ← Parse.accept .comma then
                Parse.countedList what p left (a :: done)
              else
                return (a :: done).reverse)
          fun as => (∀ a ∈ done, Q a) → ∀ a ∈ as, Q a := by
        refine bind hp fun a => bind (accept .comma) fun more => ?_
        split
        · exact (ih (a :: done)).weaken (by simp_all)
        · exact pure (by simp_all [or_imp])
      unfold Parse.countedList
      split
      · refine bind peek fun token => bind (report _) fun _ => ?_
        exact hitem.weaken fun _ _ h => h.elim
      · exact hitem

theorem parenthesised
    (what : Counted)
    (hp : Reads k p Q) :
    Reads k (Parse.parenthesised what p) fun as => ∀ a ∈ as, Q a := by
  refine bind (check .rightParen) fun closed => ?_
  split
  · exact pure (by simp)
  · refine bind budget fun tokens => (countedList what hp tokens []).weaken ?_
    simp_all

theorem parameters : Reads k Parse.parameters fun names => ∀ name ∈ names, ¬IsReserved name :=
  parenthesised .parameters (bind (requireName _) fun _ => pure fun h => h)

end Repetition

/-- After a failure there is an error. -/
theorem recovering
    {p : Parse Stmt} {Q : Stmt → Prop}
    (hp : Reads k p Q) :
    Reads k (Parse.recovering p) fun result => ∀ s ∈ result, Q s := by
  intro c s hc hs
  have hread := hp c s hc hs
  unfold Parse.recovering
  cases hps : p c s with
  | ok a s' =>
      rw [hps] at hread
      exact ⟨hread.1, fun he => ⟨(hread.2 he).1, by simpa using (hread.2 he).2⟩⟩
  | abort errors => trivial
  | fail e s' =>
      rw [hps] at hread
      simp only [Parse.report]
      by_cases hall : c.collectAll
      · simp only [hall, if_true]
        refine ⟨Cursor.Unreserved.synchronize (s := s'.record e) hread, fun he => ?_⟩
        simp [Cursor.synchronize, Cursor.record] at he
      · simp only [hall]
        trivial

end Reads

end Parse

end Lox
