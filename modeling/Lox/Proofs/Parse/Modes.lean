import Lox.Proofs.Parse.Comparison.Statement
import Lox.Proofs.Token.Events

/-!
# The two modes of reading

With `collectAll`, reading goes on behind an error; without, it ends at the first one. The two ways
to read a program are compared here up to the first error: the outcome without `collectAll` is what
is left of the outcome with it, `Parsed.firstOnly`. This holds because an error, once recorded, is
never taken back.
-/

namespace Lox

namespace Parsed

variable {α : Type} [Relocatable α]

/-- Reading from `s` on takes no error back, and the end of the whole parse has a cause. -/
def Extends (s : Parse.Cursor) : Parsed α → Prop
  | .ok _ t => s.errors <+: t.errors
  | .fail _ t => s.errors <+: t.errors
  | .abort errors => s.errors <+: errors ∧ errors ≠ []

/-- What is left of an outcome if the first error that was recorded is the end of the parse. -/
def firstOnly : Parsed α → Parsed α
  | .ok a t => if t.errors = [] then .ok (move .identity a) t else .abort (t.errors.take 1)
  | .fail e t => if t.errors = [] then .fail e t else .abort (t.errors.take 1)
  | .abort errors => .abort (errors.take 1)

omit [Relocatable α] in
theorem Extends.trans {s t : Parse.Cursor} {out : Parsed α}
    (h : out.Extends t)
    (hst : s.errors <+: t.errors) :
    out.Extends s := by
  cases out with
  | ok a u => exact hst.trans h
  | fail e u => exact hst.trans h
  | abort errors => exact ⟨hst.trans h.1, h.2⟩

omit [Relocatable α] in
theorem take_one_of_prefix {xs ys : List α} (h : xs <+: ys) (hxs : xs ≠ []) :
    ys.take 1 = xs.take 1 := by
  obtain ⟨zs, rfl⟩ := h
  cases xs with
  | nil => contradiction
  | cons x xs => rfl

/-- After an error it does not matter how reading goes on. -/
theorem Extends.firstOnly_eq {s : Parse.Cursor} {out : Parsed α}
    (h : out.Extends s)
    (hs : s.errors ≠ []) :
    out.firstOnly = .abort (s.errors.take 1) := by
  have hne {errors : List ParseError} (hp : s.errors <+: errors) : errors ≠ [] :=
    fun hnil => hs (List.prefix_nil.mp (hnil ▸ hp))
  cases out with
  | ok a t => rw [firstOnly, if_neg (hne h), take_one_of_prefix h hs]
  | fail e t => rw [firstOnly, if_neg (hne h), take_one_of_prefix h hs]
  | abort errors => rw [firstOnly, take_one_of_prefix h.1 hs]

end Parsed

namespace Parse

/-- Every error is wanted. -/
def Context.collecting (c : Context) : Context :=
  { c with collectAll := true }

/-- Only the first error is wanted. -/
def Context.stopping (c : Context) : Context :=
  { c with collectAll := false }

/-- The second reader, without `collectAll`, ends at the first error of the first one. -/
structure StopsEarly {α : Type} [Relocatable α] (p p' : Parse α) : Prop where
  extends_from : ∀ (c : Context) (s : Cursor), (p c.collecting s).Extends s
  agrees : ∀ (c : Context) (s : Cursor), s.errors = [] → p' c.stopping s = (p c.collecting s).firstOnly

namespace StopsEarly

variable {α β : Type} [Relocatable α] [Relocatable β]

/-- A reader that records nothing and is the same in both modes. -/
theorem of_keeps
    {p p' : Parse α}
    (value : Context → Cursor → α)
    (next : Cursor → Cursor)
    (hnext : ∀ s, (next s).errors = s.errors)
    (hp : ∀ c s, p c s = .ok (value c.stopping s) (next s))
    (hp' : ∀ c s, p' c s = .ok (move .identity (value c.stopping s)) (next s)) :
    StopsEarly p p' where
  extends_from c s := by
    have hkept : s.errors <+: (next s).errors := (hnext s).symm ▸ List.prefix_rfl
    rw [hp]
    exact hkept
  agrees c s hs := by
    rw [hp, Parsed.firstOnly, if_pos ((hnext s).trans hs)]
    exact hp' c.stopping s

theorem of_value
    {p p' : Parse α}
    (value : Cursor → α)
    (hp : ∀ c s, p c s = .ok (value s) s)
    (hp' : ∀ c s, p' c s = .ok (move .identity (value s)) s) :
    StopsEarly p p' :=
  of_keeps (fun _ s => value s) id (fun _ => rfl) hp hp'

theorem move_identity_fault (fault : ParseFault) : move .identity fault = fault := by
  cases fault <;> rfl

theorem fail (fault : ParseFault) :
    StopsEarly (Parse.fail fault : Parse α) (Parse.fail (move .identity fault)) where
  extends_from _ _ := List.prefix_rfl
  agrees _ _ hs := by
    rw [move_identity_fault]
    exact (if_pos hs).symm

theorem move_identity_error (e : ParseError) : move .identity e = e :=
  congrArg (ParseError.mk · e.token) (move_identity_fault e.fault)

theorem report (e : ParseError) :
    StopsEarly (Parse.report e) (Parse.report (move .identity e)) where
  extends_from _ s := List.prefix_append s.errors [e]
  agrees _ s hs := by
    simp [Parse.report, Context.stopping, Context.collecting, Parsed.firstOnly, Cursor.record, hs,
      move_identity_error]

theorem tooDeep : StopsEarly (Parse.tooDeep : Parse α) Parse.tooDeep where
  extends_from _ s := ⟨List.prefix_append s.errors _, by simp⟩
  agrees _ s hs := by simp [Parse.tooDeep, Parsed.firstOnly, hs]

theorem bind
    {p p' : Parse α}
    {f f' : α → Parse β}
    (hp : StopsEarly p p')
    (hf : ∀ a, StopsEarly (f a) (f' (move .identity a))) :
    StopsEarly (p >>= f) (p' >>= f') where
  extends_from c s := by
    have h := hp.extends_from c s
    rw [bind_apply]
    generalize p c.collecting s = out at h
    cases out with
    | ok a t => exact ((hf a).extends_from c t).trans h
    | fail e t => exact h
    | abort errors => exact h
  agrees c s hs := by
    simp only [bind_apply, hp.agrees c s hs]
    cases p c.collecting s with
    | ok a t =>
        by_cases ht : t.errors = []
        · simp only [Parsed.firstOnly, if_pos ht]
          exact (hf a).agrees c t ht
        · simp only [Parsed.firstOnly, if_neg ht]
          exact (((hf a).extends_from c t).firstOnly_eq ht).symm
    | fail e t => by_cases ht : t.errors = [] <;> simp [Parsed.firstOnly, ht]
    | abort errors => rfl

theorem advance : StopsEarly Parse.advance Parse.advance :=
  .of_keeps (fun _ s => s.advance.previous) Cursor.advance Cursor.errors_advance (fun _ _ => rfl)
    fun _ _ => rfl

theorem check (kind : TokenKind) : StopsEarly (Parse.check kind) (Parse.check kind) :=
  .of_value (fun s => s.rest.head?.map (·.kind) == some kind) (fun _ _ => rfl) fun _ _ => rfl

theorem checkNext (kind : TokenKind) :
    StopsEarly (Parse.checkNext kind) (Parse.checkNext kind) :=
  .of_value (fun s => s.rest[1]?.map (·.kind) == some kind) (fun _ _ => rfl) fun _ _ => rfl

theorem consume (kind : TokenKind) (expected : String) (reason : Option String) :
    StopsEarly (Parse.consume kind expected reason) (Parse.consume kind expected reason) := by
  refine (check kind).bind fun found => ?_
  cases found with
  | true => exact advance
  | false => exact .fail _

theorem context
    {f f' : Context → Parse α}
    (hf : ∀ c, StopsEarly (f c) (f' c))
    (hblind : ∀ c b, f' { c with collectAll := b } = f' c) :
    StopsEarly (Parse.context >>= f) (Parse.context >>= f') where
  extends_from c s := (hf c.collecting).extends_from c s
  agrees c s hs := by
    have h := (hf c.collecting).agrees c s hs
    rwa [Context.collecting, hblind c true, ← hblind c false] at h

/-- The tokens that are left are the same in both modes. -/
theorem remaining
    {f f' : List Token → Parse α}
    (hf : ∀ tokens, StopsEarly (f tokens) (f' tokens)) :
    StopsEarly (Parse.remaining >>= f) (Parse.remaining >>= f') where
  extends_from c s := (hf s.rest).extends_from c s
  agrees c s hs := (hf s.rest).agrees c s hs

theorem budget
    {f f' : List Token → Parse α}
    (hf : ∀ tokens, StopsEarly (f tokens) (f' tokens)) :
    StopsEarly (Parse.budget >>= f) (Parse.budget >>= f') where
  extends_from c s := (hf (s.final :: s.rest)).extends_from c s
  agrees c s hs := (hf (s.final :: s.rest)).agrees c s hs

/-- A change of the context that keeps to what it finds of the mode and the depth. -/
theorem within
    {p p' : Parse α}
    {change : Context → Context}
    (hchange : ∀ c all depth arrows,
      change { c with collectAll := all, depth := depth, arrows := arrows } =
        { change c with collectAll := all, depth := depth, arrows := arrows })
    (hp : StopsEarly p p') :
    StopsEarly (Parse.within change p) (Parse.within change p') := by
  have hmode (c : Context) (all : Bool) :
      change { c with collectAll := all } = { change c with collectAll := all } := by
    have hsame : change c =
        { change c with collectAll := c.collectAll, depth := c.depth, arrows := c.arrows } :=
      hchange c c.collectAll c.depth c.arrows
    rw [hsame]
    exact hchange c all c.depth c.arrows
  refine ⟨fun c s => ?_, fun c s hs => ?_⟩
  · have hc : change c.collecting = (change c).collecting := hmode c true
    rw [Parse.within, hc]
    exact hp.extends_from (change c) s
  · have hc : change c.collecting = (change c).collecting := hmode c true
    have hs' : change c.stopping = (change c).stopping := hmode c false
    rw [Parse.within, Parse.within, hc, hs']
    exact hp.agrees (change c) s hs

/-- One level deeper, if the limit allows it; the levels are counted without regard to the mode. -/
theorem nestedIn
    {p p' : Parse α}
    (limit : Nat)
    (level : Context → Nat)
    (enter : Context → Context)
    (hlevel : ∀ c : Context, level c.collecting = level c.stopping)
    (hcollecting : ∀ c : Context, enter c.collecting = (enter c).collecting)
    (hstopping : ∀ c : Context, enter c.stopping = (enter c).stopping)
    (hp : StopsEarly p p') :
    StopsEarly (fun c s => if limit ≤ level c then Parse.tooDeep c s else p (enter c) s)
      (fun c s => if limit ≤ level c then Parse.tooDeep c s else p' (enter c) s) where
  extends_from c s := by
    rw [hcollecting]
    split
    · exact (tooDeep (α := α)).extends_from c s
    · exact hp.extends_from (enter c) s
  agrees c s hs := by
    rw [hcollecting, hstopping, hlevel]
    split
    · exact tooDeep.agrees c s hs
    · exact hp.agrees (enter c) s hs

theorem repeatWhile
    {σ ρ : Type}
    [Relocatable σ]
    [Relocatable ρ]
    {test test' : Parse Bool}
    {turn turn' : σ → Parse (σ × Bool)}
    {result result' : σ → ρ}
    (htest : StopsEarly test test')
    (hturn : ∀ s, StopsEarly (turn s) (turn' (move .identity s)))
    (hresult : ∀ s, result' (move .identity s) = move .identity (result s))
    (tokens : List Token)
    (s : σ) :
    StopsEarly (Parse.repeatWhile test turn result tokens s)
      (Parse.repeatWhile test' turn' result' tokens (move .identity s)) := by
  have hdone (s : σ) : StopsEarly (pure (result s)) (pure (result' (move .identity s))) :=
    of_value (fun _ => result s) (fun _ _ => rfl) fun _ _ => hresult s ▸ rfl
  induction tokens generalizing s with
  | nil => exact hdone s
  | cons _ tokens ih =>
      refine htest.bind fun holds => ?_
      cases holds with
      | false => exact hdone s
      | true =>
          refine (hturn s).bind fun next => ?_
          obtain ⟨next, more⟩ := next
          cases more with
          | true => exact ih next
          | false => exact hdone next

/-- Both modes take up reading at the same boundary, which only matters to the one that collects. -/
theorem recovering {p p' : Parse Stmt} (hp : StopsEarly p p') :
    StopsEarly (Parse.recovering p) (Parse.recovering p') where
  extends_from c s := by
    have h := hp.extends_from c s
    unfold Parse.recovering
    generalize p c.collecting s = out at h
    cases out with
    | ok a t => exact h
    | fail e t =>
        change s.errors <+: (t.record e).synchronize.errors
        rw [Cursor.errors_synchronize]
        exact List.IsPrefix.trans h (List.prefix_append t.errors [e])
    | abort errors => exact h
  agrees c s hs := by
    unfold Parse.recovering
    rw [hp.agrees c s hs]
    cases p c.collecting s with
    | ok a t => by_cases ht : t.errors = [] <;> simp [Parsed.firstOnly, ht]
    | fail e t =>
        by_cases ht : t.errors = []
        · simp [Parsed.firstOnly, ht, Parse.report, Context.stopping, Context.collecting,
            Cursor.errors_synchronize, Cursor.record]
        · have htake := Parsed.take_one_of_prefix (List.prefix_append t.errors [e]) ht
          simp [Parsed.firstOnly, ht, Parse.report, Context.collecting, Cursor.errors_synchronize,
            Cursor.record, htake]
    | abort errors => rfl

end StopsEarly

/-- The modes of reading, compared. -/
def modes : Comparison where
  relocation := .identity
  reads _ p p' := StopsEarly p p'

theorem modes_lawful : modes.Lawful where
  merges := Relocation.identity_merges
  within_extent h _ := h
  pure h := .of_value _ (fun _ _ => rfl) fun _ _ => h ▸ rfl
  bind := .bind
  context hf hblind := .context hf fun c all => hblind c all c.depth c.arrows
  peek := .of_value (·.current) (fun _ _ => rfl) fun _ _ => rfl
  previous := .of_value (·.previous) (fun _ _ => rfl) fun _ _ => rfl
  atEnd := .of_value (·.rest.isEmpty) (fun _ _ => rfl) fun _ _ => rfl
  check := .check
  check_continues _ := .check _
  checkNext kind _ hf := (StopsEarly.checkNext kind).bind hf
  advance := .advance
  consume := .consume
  fail := .fail
  report := .report
  tooDeep := .tooDeep
  within := .within
  nested := .nestedIn maxNesting (·.depth) _ (fun _ => rfl) (fun _ => rfl) fun _ => rfl
  nestedArrow := .nestedIn maxArrowNesting (·.arrows) _ (fun _ => rfl) (fun _ => rfl) fun _ => rfl
  repeatWhile htest hturn hresult :=
    .budget fun tokens => .repeatWhile htest hturn hresult tokens _
  startsArrow expected hp hq := by
    refine .remaining fun tokens => ?_
    split
    · exact hp
    · refine hq.bind fun a => (StopsEarly.consume _ _ _).bind fun _ => ?_
      exact .of_value _ (fun _ _ => rfl) fun _ _ => rfl
  recovering := .recovering

end Parse

namespace Program

/-- Tokens are read to the same program in both modes, or rejected in both, once with the first of
the errors and once with all of them. -/
theorem ofTokens_cases (tokens : List Token) :
    (∃ program, ofTokens tokens false = .ok program ∧ ofTokens tokens true = .ok program) ∨
      ∃ e later, ofTokens tokens false = .error [e] ∧ ofTokens tokens true = .error (e :: later) := by
  unfold ofTokens
  cases tokens.getLast? with
  | none => exact .inl ⟨⟨[]⟩, rfl, rfl⟩
  | some final =>
      have hprogram : Parse.StopsEarly Parse.program Parse.program :=
        Parse.modes_lawful.program
      let start : Parse.Cursor := ⟨tokens.headD final, tokens.dropLast, final, []⟩
      have hcut : Parse.program (.outermost false) start =
          (Parse.program (.outermost true) start).firstOnly :=
        hprogram.agrees (.outermost true) start rfl
      have hextends : (Parse.program (.outermost true) start).Extends start :=
        hprogram.extends_from (.outermost true) start
      simp only [start] at hcut hextends
      simp only [hcut]
      generalize Parse.program (.outermost true) _ = out at hextends
      cases out with
      | ok statements s =>
          cases herrors : s.errors with
          | nil => simp [Parsed.firstOnly, herrors, Relocation.identity_move]
          | cons e later => simp [Parsed.firstOnly, herrors]
      | fail e s => cases herrors : s.errors <;> simp [Parsed.firstOnly, herrors]
      | abort errors =>
          cases errors with
          | nil => exact absurd rfl hextends.2
          | cons e later => simp [Parsed.firstOnly]

end Program

/-- The two modes agree. A source is accepted in both, with the same program, or rejected in both:
without `collectAll` with one error, which is the first of those that are found with it. Likewise
for the scan: the tokens before the fault that stops it are those that come before the first fault
that the other scan records, and they are the tokens of that scan that end where it begins or
earlier. -/
theorem modes_agree (file : Nat) (text : List Char) :
    ((∃ program, Program.ofText file text false = .ok program ∧
        Program.ofText file text true = .ok program) ∨
      ∃ e later, Program.ofText file text false = .error [e] ∧
        Program.ofText file text true = .error (e :: later)) ∧
    ((∃ tokens, Scan.ofText file text false = ⟨tokens, [], none⟩ ∧
        Scan.ofText file text true = ⟨tokens, [], none⟩) ∨
      ∃ before e after,
        scanEvents file text = before.map .ok ++ .error e :: after ∧
        Scan.ofText file text false = ⟨before, [], some e⟩ ∧
        (Scan.ofText file text true).errors.head? = some e ∧
        (Scan.ofText file text true).tokens.takeWhile (·.span.stop ≤ e.span.start) = before) := by
  obtain ⟨tokens, hevents, hfalse, htrue⟩ | ⟨before, e, after, hevents, hfalse, htrue⟩ :=
    Scan.ofText_cases file text
  · refine ⟨?_, .inl ⟨tokens, hfalse, htrue⟩⟩
    simp only [Program.ofText, Scan.tokenize_eq_ok.mpr hevents]
    obtain ⟨program, hp, hp'⟩ | ⟨e, later, he, he'⟩ := Program.ofTokens_cases tokens
    · exact .inl ⟨program, by rw [hp], by rw [hp']⟩
    · exact .inr ⟨.syntactic e, later.map .syntactic, by rw [he]; rfl, by rw [he']; rfl⟩
  · refine ⟨.inr ⟨.lexical e, (Scan.collect after).errors.map .lexical, ?_, ?_⟩,
      .inr ⟨before, e, after, hevents, hfalse, ?_, ?_⟩⟩
    · simp [Program.ofText, Scan.tokenize, hfalse]
    · simp [Program.ofText, Scan.tokenize, htrue]
    · rw [htrue]; rfl
    · rw [htrue]
      exact tokens_before_fault (hevents ▸ scanEvents_ordered file text)

end Lox
