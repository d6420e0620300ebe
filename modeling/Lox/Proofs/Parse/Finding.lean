import Lox.Proofs.Parse.Basic
import Lox.Proofs.Tree.Misplaced

/-!
# Which misplaced constructs readers find

`Locates k lower before p Q` says of the reader `p` that, inside the constructs `k`, the errors it
records are those of misplaced constructs at the places `sites`, where `Q` relates what was read to
`sites`, unless it records an error of another kind; and that the tokens of the errors are among those
of `before`, which were read immediately before, and those that `p` takes, in the same order. `lower` is
an offset at or before which no token of `before` or token that `p` takes begins. The rules follow the
ways in which readers are built.
-/

namespace Lox

/-- What is wrong, the kind of the token and where it begins. -/
def ParseError.place (e : ParseError) : ParseFault × TokenKind × Int :=
  (e.fault, e.token.kind, e.token.span.start)

/-- The place that an error about the construct should have. -/
def Site.place (site : Site) : ParseFault × TokenKind × Int :=
  (.misplaced site.construct, site.construct.token, site.start)

/-- Do all errors say that a construct is misplaced? -/
def AllMisplaced (errors : List ParseError) : Prop :=
  ∀ e ∈ errors, e.fault.isMisplaced = true

namespace Parse

/-- No token at or behind the cursor begins before the one that was read last, and the last token ends
the input. -/
structure Cursor.Steady (s : Cursor) : Prop where
  ordered : (s.previous :: s.rest).Pairwise fun a b => a.span.start ≤ b.span.start
  final : s.final.kind = .endOfInput

/-- From the cursor `s` to the cursor `t` these tokens were taken and these errors recorded. -/
structure Grown (s t : Cursor) (taken : List Token) (errors : List ParseError) : Prop where
  rest : s.rest = taken ++ t.rest
  errors : t.errors = s.errors ++ errors
  steady : t.Steady
  previous : s.previous.span.start ≤ t.previous.span.start

/-- The errors that were recorded are those at the places `sites` of misplaced constructs. -/
structure Names (tokens : List Token) (errors : List ParseError) (sites : List Site) : Prop where
  tokens : (errors.map (·.token)).Sublist tokens
  places : errors.map ParseError.place = sites.map Site.place

/-- How reading that began at the cursor `s` may end. -/
def Found {α : Type} (before : List Token) (s : Cursor) (Q : α → List Site → Prop) :
    Parsed α → Prop
  | .ok a t => ∃ taken errors, Grown s t taken errors ∧
      (AllMisplaced errors → ∃ sites, Names (before ++ taken) errors sites ∧ Q a sites)
  | .fail e t => e.fault.isMisplaced = false ∧ ∃ taken errors, Grown s t taken errors
  | .abort _ => True

/-- Inside the constructs `k`, the reader finds the misplaced constructs in what it reads. -/
def Locates
    {α : Type}
    (k : Enclosure)
    (lower : Int)
    (before : List Token)
    (p : Parse α)
    (Q : α → List Site → Prop) :
    Prop :=
  ∀ (c : Context) (s : Cursor), c.enclosure = k → s.Steady → lower ≤ s.previous.span.start →
    Found before s Q (p c s)

/-- The same of a reader that begins at this token. -/
def LocatesAt
    {α : Type}
    (k : Enclosure)
    (lower : Int)
    (token : Token)
    (p : Parse α)
    (Q : α → List Site → Prop) :
    Prop :=
  ∀ (c : Context) (s : Cursor), c.enclosure = k → s.Steady → lower ≤ s.previous.span.start →
    s.rest.head? = some token → Found [] s Q (p c s)

section Growth

variable {s t u : Cursor} {taken later : List Token} {errors more : List ParseError}

theorem Grown.refl (hs : s.Steady) : Grown s s [] [] where
  rest := rfl
  errors := (List.append_nil _).symm
  steady := hs
  previous := Int.le_refl _

theorem Grown.trans (h : Grown s t taken errors) (h' : Grown t u later more) :
    Grown s u (taken ++ later) (errors ++ more) where
  rest := by rw [h.rest, h'.rest, List.append_assoc]
  errors := by rw [h'.errors, h.errors, List.append_assoc]
  steady := h'.steady
  previous := Int.le_trans h.previous h'.previous

theorem Grown.record (hs : s.Steady) (e : ParseError) : Grown s (s.record e) [] [e] where
  rest := rfl
  errors := rfl
  steady := ⟨hs.ordered, hs.final⟩
  previous := Int.le_refl _

/-- A token is taken, or the input is at its end. -/
theorem Grown.advance (hs : s.Steady) : Grown s s.advance (s.rest.take 1) [] := by
  unfold Cursor.advance
  split
  · next hrest =>
      rw [hrest]
      exact .refl hs
  · next token rest hrest =>
      have hordered := hs.ordered
      rw [hrest] at hordered ⊢
      obtain ⟨hfirst, hrest'⟩ := List.pairwise_cons.mp hordered
      exact
        { rest := hrest
          errors := (List.append_nil _).symm
          steady := ⟨hrest', hs.final⟩
          previous := hfirst token List.mem_cons_self }

/-- Tokens are passed over up to the next boundary. -/
theorem Grown.synchronize (hs : s.Steady) : ∃ taken, Grown s s.synchronize taken [] := by
  have hskip (previous : Token) (tokens : List Token)
      (h : (previous :: tokens).Pairwise fun a b => a.span.start ≤ b.span.start) :
      ∃ passed, tokens = passed ++ (skipToBoundary previous tokens).2 ∧
        ((skipToBoundary previous tokens).1 :: (skipToBoundary previous tokens).2).Pairwise
          (fun a b => a.span.start ≤ b.span.start) ∧
        previous.span.start ≤ (skipToBoundary previous tokens).1.span.start := by
    induction tokens generalizing previous with
    | nil => exact ⟨[], rfl, h, Int.le_refl _⟩
    | cons token rest ih =>
        unfold skipToBoundary
        split
        · exact ⟨[], rfl, h, Int.le_refl _⟩
        · obtain ⟨hfirst, hrest⟩ := List.pairwise_cons.mp h
          obtain ⟨passed, hpassed, hordered, hle⟩ := ih token hrest
          refine ⟨token :: passed, congrArg (token :: ·) hpassed, hordered, ?_⟩
          exact Int.le_trans (hfirst token List.mem_cons_self) hle
  have hadvanced := Grown.advance hs
  obtain ⟨passed, hpassed, hordered, hle⟩ := hskip _ _ hadvanced.steady.ordered
  have hpassing : Grown s.advance s.synchronize passed [] :=
    { rest := hpassed
      errors := (List.append_nil _).symm
      steady := ⟨hordered, hadvanced.steady.final⟩
      previous := hle }
  exact ⟨_, hadvanced.trans hpassing⟩

theorem AllMisplaced.append :
    AllMisplaced (errors ++ more) ↔ AllMisplaced errors ∧ AllMisplaced more := by
  simp [AllMisplaced, or_imp, forall_and]

theorem Names.nil : Names taken [] [] :=
  ⟨List.nil_sublist _, rfl⟩

theorem Names.append
    {sites others : List Site}
    (h : Names taken errors sites)
    (h' : Names later more others) :
    Names (taken ++ later) (errors ++ more) (sites ++ others) where
  tokens := by
    rw [List.map_append]
    exact h.tokens.append h'.tokens
  places := by rw [List.map_append, List.map_append, h.places, h'.places]

end Growth

namespace Locates

variable {α β σ ρ : Type} {k : Enclosure} {lower : Int} {before : List Token}
variable {p : Parse α} {Q Q' : α → List Site → Prop}

section Rules

theorem pure {a : α} (h : Q a []) : Locates k lower before (pure a) Q :=
  fun _ _ _ hs _ => ⟨[], [], .refl hs, fun _ => ⟨[], .nil, h⟩⟩

theorem weaken
    (hp : Locates k lower before p Q)
    (h : ∀ a sites, Q a sites → Q' a sites) :
    Locates k lower before p Q' := by
  intro c s hc hs hlower
  have hfound := hp c s hc hs hlower
  generalize p c s = r at hfound ⊢
  cases r with
  | abort errors => trivial
  | fail e t => exact hfound
  | ok a t =>
      obtain ⟨taken, errors, hgrown, hnames⟩ := hfound
      refine ⟨taken, errors, hgrown, fun hall => ?_⟩
      obtain ⟨sites, hsites, hQ⟩ := hnames hall
      exact ⟨sites, hsites, h a sites hQ⟩

/-- What was read before need not be used. -/
theorem behind (hp : Locates k lower [] p Q) : Locates k lower before p Q := by
  intro c s hc hs hlower
  have hfound := hp c s hc hs hlower
  generalize p c s = r at hfound ⊢
  cases r with
  | abort errors => trivial
  | fail e t => exact hfound
  | ok a t =>
      obtain ⟨taken, errors, hgrown, hnames⟩ := hfound
      refine ⟨taken, errors, hgrown, fun hall => ?_⟩
      obtain ⟨sites, hsites, hQ⟩ := hnames hall
      exact ⟨sites, ⟨hsites.tokens.trans (List.sublist_append_right _ _), hsites.places⟩, hQ⟩

theorem bind
    {f : α → Parse β} {R : β → List Site → Prop}
    (hp : Locates k lower before p Q)
    (hf : ∀ a, Locates k lower [] (f a) fun b sites => ∀ first, Q a first → R b (first ++ sites)) :
    Locates k lower before (p >>= f) R := by
  intro c s hc hs hlower
  have hfirst := hp c s hc hs hlower
  rw [bind_apply]
  generalize p c s = r at hfirst ⊢
  cases r with
  | abort errors => trivial
  | fail e t => exact hfirst
  | ok a t =>
      obtain ⟨taken, errors, hgrown, hnames⟩ := hfirst
      have hsecond := hf a c t hc hgrown.steady (Int.le_trans hlower hgrown.previous)
      simp only
      generalize f a c t = r at hsecond ⊢
      cases r with
      | abort errors => trivial
      | fail e u =>
          obtain ⟨he, later, more, hgrown'⟩ := hsecond
          exact ⟨he, _, _, hgrown.trans hgrown'⟩
      | ok b u =>
          obtain ⟨later, more, hgrown', hnames'⟩ := hsecond
          refine ⟨_, _, hgrown.trans hgrown', fun hall => ?_⟩
          obtain ⟨hmisplaced, hmisplaced'⟩ := AllMisplaced.append.mp hall
          obtain ⟨sites, hsites, hQ⟩ := hnames hmisplaced
          obtain ⟨others, hothers, hR⟩ := hnames' hmisplaced'
          exact ⟨_, by simpa using hsites.append hothers, hR sites hQ⟩

/-- After a reader whose findings are known. -/
theorem first
    {f : α → Parse β} {R : β → List Site → Prop} {l : α → List Site}
    (hp : Locates k lower before p fun a sites => sites = l a)
    (hf : ∀ a, Locates k lower [] (f a) fun b sites => R b (l a ++ sites)) :
    Locates k lower before (p >>= f) R :=
  bind hp fun a => (hf a).weaken fun _ _ h _ hfirst => hfirst ▸ h

/-- After a reader that finds nothing. -/
theorem next
    {f : α → Parse β} {R : β → List Site → Prop}
    (hp : Locates k lower before p fun _ sites => sites = [])
    (hf : ∀ a, Locates k lower [] (f a) R) :
    Locates k lower before (p >>= f) R :=
  first (l := fun _ => []) hp hf

theorem at_token (token : Token) (hp : Locates k lower [] p Q) : LocatesAt k lower token p Q :=
  fun c s hc hs hlower _ => hp c s hc hs hlower

end Rules

section Primitives

/-- What changes neither the tokens nor the errors finds nothing. -/
theorem of_look {look : Cursor → α} :
    Locates k lower before (fun _ s => .ok (look s) s) fun _ sites => sites = [] :=
  fun _ _ _ hs _ => ⟨[], [], .refl hs, fun _ => ⟨[], .nil, rfl⟩⟩

theorem previous : Locates k lower before Parse.previous fun _ sites => sites = [] :=
  of_look

theorem remaining : Locates k lower before Parse.remaining fun _ sites => sites = [] :=
  of_look

theorem budget : Locates k lower before Parse.budget fun _ sites => sites = [] :=
  of_look

theorem atEnd : Locates k lower before Parse.atEnd fun _ sites => sites = [] :=
  of_look

theorem peek : Locates k lower before Parse.peek fun _ sites => sites = [] :=
  of_look

theorem check (kind : TokenKind) :
    Locates k lower before (Parse.check kind) fun _ sites => sites = [] :=
  of_look

theorem checkNext (kind : TokenKind) :
    Locates k lower before (Parse.checkNext kind) fun _ sites => sites = [] :=
  of_look

theorem context
    {f : Context → Parse β} {R : β → List Site → Prop}
    (hf : ∀ c : Context, c.enclosure = k → Locates k lower before (f c) R) :
    Locates k lower before (Parse.context >>= f) R :=
  fun c s hc hs hlower => hf c hc c s hc hs hlower

theorem advance : Locates k lower before Parse.advance fun _ sites => sites = [] :=
  fun _ _ _ hs _ => ⟨_, [], .advance hs, fun _ => ⟨[], .nil, rfl⟩⟩

theorem accept (kind : TokenKind) :
    Locates k lower before (Parse.accept kind) fun _ sites => sites = [] := by
  refine next (check kind) fun found => ?_
  split
  · exact next advance fun _ => pure rfl
  · exact pure rfl

/-- What is read at a token, or at the end of the input. -/
theorem peekThen
    {f : Token → Parse β} {R : β → List Site → Prop}
    (hf : ∀ token, LocatesAt k lower token (f token) R)
    (hend : ∀ token, token.kind = .endOfInput → Locates k lower [] (f token) R) :
    Locates k lower [] (Parse.peek >>= f) R := by
  intro c s hc hs hlower
  change Found [] s R (f s.current c s)
  unfold Cursor.current
  cases hrest : s.rest with
  | nil => exact hend s.final hs.final c s hc hs hlower
  | cons token rest => exact hf token c s hc hs hlower (by rw [hrest]; rfl)

/-- A token is taken, and what is read then begins behind it. -/
theorem advanceThen
    {f : Token → Parse β} {R : β → List Site → Prop} {token : Token}
    (hf : Locates k token.span.start [token] (f token) R)
    {c : Context} {s : Cursor}
    (hc : c.enclosure = k)
    (hs : s.Steady)
    (htoken : s.rest.head? = some token) :
    Found before s R ((Parse.advance >>= f) c s) := by
  obtain ⟨rest, hrest⟩ : ∃ rest, s.rest = token :: rest := by
    cases hrest : s.rest with
    | nil => simp [hrest] at htoken
    | cons first rest =>
        rw [hrest] at htoken
        exact ⟨rest, congrArg (· :: rest) (Option.some.inj htoken)⟩
  have hadvance : s.advance = { s with previous := token, rest := rest } := by
    unfold Cursor.advance
    rw [hrest]
  have hgrown : Grown s s.advance [token] [] := by
    have h := Grown.advance hs
    rwa [hrest] at h
  change Found before s R (f s.advance.previous c s.advance)
  have hprevious : s.advance.previous = token := by rw [hadvance]
  have hfound := hf c s.advance hc hgrown.steady (Int.le_of_eq (by rw [hprevious]))
  rw [hprevious]
  generalize f token c s.advance = r at hfound ⊢
  cases r with
  | abort errors => trivial
  | fail e t =>
      obtain ⟨he, taken, errors, hrest⟩ := hfound
      exact ⟨he, _, _, hgrown.trans hrest⟩
  | ok b t =>
      obtain ⟨taken, errors, hrest, hnames⟩ := hfound
      refine ⟨_, _, hgrown.trans hrest, fun hall => ?_⟩
      obtain ⟨sites, hsites, hR⟩ := hnames hall
      exact ⟨sites, ⟨hsites.tokens.trans (List.sublist_append_right _ _), hsites.places⟩, hR⟩

theorem advance_at
    {f : Token → Parse β} {R : β → List Site → Prop} {token : Token}
    (hf : Locates k token.span.start [token] (f token) R) :
    LocatesAt k lower token (Parse.advance >>= f) R :=
  fun _ _ hc hs _ htoken => advanceThen hf hc hs htoken

theorem fail
    {fault : ParseFault}
    (hfault : fault.isMisplaced = false) :
    Locates k lower before (Parse.fail fault) Q :=
  fun _ _ _ hs _ => ⟨hfault, [], [], .refl hs⟩

theorem tooDeep : Locates k lower before Parse.tooDeep Q :=
  fun _ _ _ _ _ => trivial

/-- A token of this kind is taken, and what is read then begins behind it. -/
theorem consumeThen
    {f : Token → Parse β} {R : β → List Site → Prop}
    {kind : TokenKind} {expected : String} {reason : Option String}
    (hf : ∀ token, token.kind = kind → Locates k token.span.start [token] (f token) R) :
    Locates k lower before (Parse.consume kind expected reason >>= f) R := by
  intro c s hc hs hlower
  change Found before s R (((if (s.rest.head?.map (·.kind)) == some kind then Parse.advance
    else Parse.fail (.expectedToken expected reason)) >>= f) c s)
  split
  · next hkind =>
      obtain ⟨token, htoken, hkind⟩ : ∃ token, s.rest.head? = some token ∧ token.kind = kind := by
        simpa using hkind
      exact advanceThen (hf token hkind) hc hs htoken
  · exact ⟨rfl, [], [], .refl hs⟩

theorem consume (kind : TokenKind) (expected : String) (reason : Option String) :
    Locates k lower before (Parse.consume kind expected reason) fun _ sites => sites = [] := by
  refine next (check kind) fun found => ?_
  split
  · exact advance
  · exact fail rfl

theorem require (kind : TokenKind) (expected : String) :
    Locates k lower before (Parse.require kind expected) fun _ sites => sites = [] :=
  consume kind expected none

theorem spanFrom (start : Token) :
    Locates k lower before (Parse.spanFrom start) fun _ sites => sites = [] :=
  next previous fun _ => pure rfl

/-- The span from a token that was read ends later and begins there. -/
theorem spanFrom_start (start : Token) :
    Locates k start.span.start before (Parse.spanFrom start) fun span sites =>
      sites = [] ∧ span.start = start.span.start := by
  intro c s _ hs hlower
  refine ⟨[], [], .refl hs, fun _ => ⟨[], .nil, rfl, ?_⟩⟩
  unfold Span.merge
  split
  · exact Int.min_eq_left hlower
  · rfl

end Primitives

section Errors

/-- After another error nothing is claimed. -/
theorem report
    {e : ParseError} {R : Unit → List Site → Prop}
    (he : e.fault.isMisplaced = false) :
    Locates k lower before (Parse.report e) R := by
  intro c s _ hs _
  unfold Parse.report
  split
  · refine ⟨[], [e], .record hs e, fun hall => ?_⟩
    rw [hall e List.mem_cons_self] at he
    cases he
  · trivial

/-- A misplaced construct is found at the token that was read last. -/
theorem misplaced
    {construct : Misplaced} {token : Token}
    (hkind : token.kind = construct.token) :
    Locates k lower [token] (Parse.report ⟨.misplaced construct, token⟩) fun _ sites =>
      sites = [⟨construct, token.span.start⟩] := by
  intro c s _ hs _
  unfold Parse.report
  split
  · refine ⟨[], _, .record hs _, fun _ => ⟨_, ⟨List.Sublist.refl _, ?_⟩, rfl⟩⟩
    simp [ParseError.place, Site.place, hkind]
  · trivial

theorem reportIf
    {construct : Misplaced} {token : Token}
    (isMisplaced : Bool)
    (hkind : token.kind = construct.token) :
    Locates k lower [token] (Parse.reportIf isMisplaced construct token) fun _ sites =>
      sites = Enclosure.siteIf isMisplaced construct token.span := by
  cases isMisplaced with
  | true => exact misplaced hkind
  | false => exact pure rfl

end Errors

section Contexts

theorem within
    {l : Enclosure} {change : Context → Context}
    (hp : Locates l lower before p Q)
    (hchange : ∀ c : Context, c.enclosure = k → (change c).enclosure = l) :
    Locates k lower before (Parse.within change p) Q :=
  fun c s hc hs hlower => hp (change c) s (hchange c hc) hs hlower

theorem nested (hp : Locates k lower before p Q) : Locates k lower before (Parse.nested p) Q := by
  intro c s hc hs hlower
  unfold Parse.nested
  split
  · exact tooDeep (Q := Q) c s hc hs hlower
  · exact hp _ s hc hs hlower

theorem nestedArrow (hp : Locates k.enterFunction lower before p Q) :
    Locates k lower before (Parse.nestedArrow p) Q := by
  intro c s hc hs hlower
  unfold Parse.nestedArrow
  split
  · exact tooDeep (Q := Q) c s hc hs hlower
  · exact hp _ s (by rw [← hc]; rfl) hs hlower

end Contexts

section Repetition

/-- What each turn finds is added to what was found before. -/
theorem repeatWhile
    {test : Parse Bool} {turn : σ → Parse (σ × Bool)} {result : σ → ρ} {l : σ → List Site}
    (htest : Locates k lower [] test fun _ sites => sites = [])
    (hturn : ∀ a, Locates k lower [] (turn a) fun after sites => l a ++ sites = l after.1)
    (left : List Token)
    (a : σ) :
    Locates k lower [] (Parse.repeatWhile test turn result left a) fun r sites =>
      ∃ b, r = result b ∧ l a ++ sites = l b := by
  induction left generalizing a with
  | nil => exact pure ⟨a, rfl, List.append_nil _⟩
  | cons token left ih =>
      refine next htest fun more => ?_
      split
      · refine bind (hturn a) fun after => ?_
        split
        · refine (ih after.1).weaken fun r sites h first hfirst => ?_
          obtain ⟨b, hr, hb⟩ := h
          exact ⟨b, hr, by rw [← List.append_assoc, hfirst, hb]⟩
        · refine pure fun first hfirst => ⟨after.1, rfl, ?_⟩
          rw [List.append_nil, hfirst]
      · exact pure ⟨a, rfl, List.append_nil _⟩

variable {l : α → List Site}

/-- What is found in a list of items, the last of which comes first. -/
theorem itemTurn
    (hp : Locates k lower [] p fun a sites => sites = l a)
    (done : List α) :
    Locates k lower [] (Parse.itemTurn p done) fun after sites =>
      done.reverse.flatMap l ++ sites = after.1.reverse.flatMap l :=
  first hp fun a => pure (by simp)

theorem commaTurn
    (hp : Locates k lower [] p fun a sites => sites = l a)
    (done : List α) :
    Locates k lower [] (Parse.commaTurn p done) fun after sites =>
      done.reverse.flatMap l ++ sites = after.1.reverse.flatMap l :=
  first hp fun a => next (accept .comma) fun more => pure (by simp)

theorem countedTurn
    (what : Counted)
    (hp : Locates k lower [] p fun a sites => sites = l a)
    (done : List α) :
    Locates k lower [] (Parse.countedTurn what p done) fun after sites =>
      done.reverse.flatMap l ++ sites = after.1.reverse.flatMap l := by
  unfold Parse.countedTurn
  split
  · refine next peek fun token => bind (Q := fun _ _ => False) (report rfl) fun _ => ?_
    exact (commaTurn hp done).weaken fun _ _ _ _ h => h.elim
  · exact commaTurn hp done

/-- A repetition that starts with no items. -/
theorem items
    {r : Parse (List α)}
    (hr : Locates k lower [] r fun as sites => ∃ done : List α,
      as = done.reverse ∧ ([] : List α).reverse.flatMap l ++ sites = done.reverse.flatMap l) :
    Locates k lower [] r fun as sites => sites = as.flatMap l :=
  hr.weaken fun _ _ ⟨_, hdone, hsites⟩ => by simpa [hdone] using hsites

theorem manyUntil
    {stop : Parse Bool}
    (hstop : Locates k lower [] stop fun _ sites => sites = [])
    (hp : Locates k lower [] p fun a sites => sites = l a)
    (left : List Token) :
    Locates k lower [] (Parse.manyUntil stop p left []) fun as sites => sites = as.flatMap l := by
  rw [manyUntil_eq]
  exact items (repeatWhile (next hstop fun _ => pure rfl) (itemTurn hp) left [])

theorem listBefore
    (close : TokenKind)
    (hp : Locates k lower [] p fun a sites => sites = l a)
    (left : List Token) :
    Locates k lower [] (Parse.listBefore close p left []) fun as sites =>
      sites = as.flatMap l := by
  rw [listBefore_eq]
  exact items (repeatWhile (next (check close) fun _ => pure rfl) (commaTurn hp) left [])

theorem parenthesised
    (what : Counted)
    (hp : Locates k lower [] p fun a sites => sites = l a) :
    Locates k lower [] (Parse.parenthesised what p) fun as sites => sites = as.flatMap l := by
  refine next (check .rightParen) fun closed => ?_
  split
  · exact pure rfl
  · refine next budget fun tokens => ?_
    rw [countedList_eq]
    exact items (repeatWhile (pure rfl) (countedTurn what hp) tokens [])

theorem parameters : Locates k lower [] Parse.parameters fun _ sites => sites = [] := by
  have hname : Locates k lower []
      (do return (← Parse.require .identifier "parameter name").lexeme)
      fun _ sites => sites = [] :=
    next (require .identifier _) fun _ => pure rfl
  exact (parenthesised (l := fun _ => []) .parameters hname).weaken fun _ _ h => by
    rw [h, List.flatMap_eq_nil_iff]
    exact fun _ _ => rfl

end Repetition

/-- A failure is an error of another kind, after which nothing is claimed. -/
theorem recovering
    {p : Parse Stmt}
    (hp : Locates k lower [] p fun s sites => sites = s.misplaced k) :
    Locates k lower [] (Parse.recovering p) fun result sites =>
      sites = Stmt.misplaced? k result := by
  intro c s hc hs hlower
  have hfound := hp c s hc hs hlower
  unfold Parse.recovering
  generalize p c s = r at hfound ⊢
  cases r with
  | abort errors => trivial
  | ok a t => exact hfound
  | fail e t =>
      obtain ⟨he, taken, errors, hgrown⟩ := hfound
      simp only [Parse.report]
      by_cases hall : c.collectAll
      · simp only [hall, if_true]
        have hrecorded := hgrown.trans (.record hgrown.steady e)
        obtain ⟨passed, hpassed⟩ := Grown.synchronize hrecorded.steady
        refine ⟨_, _, hrecorded.trans hpassed, fun hmisplaced => ?_⟩
        rw [hmisplaced e (by simp)] at he
        cases he
      · simp only [hall]
        trivial

end Locates

end Parse

end Lox
