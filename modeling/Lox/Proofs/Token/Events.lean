import Lox.Proofs.Token.Segments

/-!
# The order of tokens and faults

The tokens and faults of a text come one behind the other (`scanEvents_ordered`). The scan that ends
at the first fault therefore yields the tokens that end before the first fault the other scan
records, and no token less or more.
-/

namespace Lox

section Order

/-- Where a token or a fault is. -/
def eventSpan : Except LexError Token → Span
  | .ok token => token.span
  | .error e => e.span

/-- The one begins before the other, and if it is a token also ends before it. -/
structure Precedes (a b : Except LexError Token) : Prop where
  start_lt : (eventSpan a).start < (eventSpan b).start
  token_le : ∀ token, a = .ok token → token.span.stop ≤ (eventSpan b).start

/-- Every segment has its characters where the text has them. -/
theorem Cut.within
    {offset : Nat}
    {position : Position}
    {text : List Char}
    {segments : List Segment}
    (h : Cut offset position text segments) :
    ∀ s ∈ segments, offset ≤ s.offset ∧ 0 < s.chars.length ∧
      s.offset + s.chars.length ≤ offset + text.length := by
  induction h with
  | nil => nofun
  | @cons offset position c taken rest piece segments hread hrest ih =>
      intro s hs
      simp only [List.length_cons, List.length_append]
      rcases List.mem_cons.mp hs with rfl | hs
      · simp only [List.length_cons]
        omega
      · have := ih s hs
        omega

/-- The segments come one behind the other. -/
theorem Cut.ordered
    {offset : Nat}
    {position : Position}
    {text : List Char}
    {segments : List Segment}
    (h : Cut offset position text segments) :
    segments.Pairwise fun a b => a.offset + a.chars.length ≤ b.offset := by
  induction h with
  | nil => exact .nil
  | @cons offset position c taken rest piece segments hread hrest ih =>
      refine .cons (fun s hs => ?_) ih
      have := (hrest.within s hs).1
      simp only [List.length_cons]
      omega

theorem eventSpan_start
    {segment : Segment}
    {file : Nat}
    {event : Except LexError Token}
    (h : segment.event? file = some event) :
    (eventSpan event).start = segment.offset := by
  unfold Segment.event? at h
  split at h
  · contradiction
  · cases h; rfl
  · next cause _ =>
      cases h
      cases cause <;> rfl

theorem stop_of_token
    {segment : Segment}
    {file : Nat}
    {token : Token}
    (h : segment.event? file = some (.ok token)) :
    token.span.stop = segment.offset + segment.chars.length := by
  unfold Segment.event? at h
  split at h
  · contradiction
  · cases h; rfl
  · cases h

/-- The tokens and faults of a text come one behind the other. -/
theorem scanEvents_ordered (file : Nat) (text : List Char) :
    (scanEvents file text).Pairwise Precedes := by
  have hcut : Cut 0 Position.first text (segments text) := Cut.of_text text 0 Position.first
  refine List.pairwise_append.mpr ⟨?_, List.pairwise_singleton .., ?_⟩
  · refine List.Pairwise.filterMap _ (fun a b hab x hx y hy => ?_)
      (hcut.ordered.imp_of_mem fun {a b} ha _ hab => And.intro (hcut.within a ha).2.1 hab)
    obtain ⟨hpos, hle⟩ := hab
    refine ⟨?_, fun token htoken => ?_⟩
    · rw [eventSpan_start hx, eventSpan_start hy]
      omega
    · subst htoken
      rw [stop_of_token hx, eventSpan_start hy]
      omega
  · intro x hx y hy
    obtain ⟨segment, hsegment, hevent⟩ := List.mem_filterMap.mp hx
    obtain rfl := List.mem_singleton.mp hy
    obtain ⟨-, hpos, hle⟩ := hcut.within segment hsegment
    have hstart : (eventSpan (.ok (endToken file text))).start = text.length := rfl
    refine ⟨?_, fun token htoken => ?_⟩
    · rw [eventSpan_start hevent, hstart]
      omega
    · subst htoken
      rw [stop_of_token hevent, hstart]
      omega

end Order

section Faults

theorem Scan.mem_tokens_untilFault
    {token : Token} {events : List (Except LexError Token)}
    (h : token ∈ (untilFault events).tokens) :
    .ok token ∈ events := by
  induction events with
  | nil => simp [untilFault] at h
  | cons event rest ih =>
      cases event with
      | error _ => simp [untilFault] at h
      | ok first =>
          rcases List.mem_cons.mp h with rfl | h
          · exact List.mem_cons_self
          · exact List.mem_cons_of_mem _ (ih h)

theorem Scan.mem_tokens_collect
    {token : Token} {events : List (Except LexError Token)}
    (h : token ∈ (collect events).tokens) :
    .ok token ∈ events := by
  obtain ⟨event, hevent, htoken⟩ := List.mem_filterMap.mp h
  cases event with
  | error e => cases htoken
  | ok t =>
      cases htoken
      exact hevent

/-- The tokens that a scan gives out come up in the text. -/
theorem Scan.mem_tokens_ofText
    {file : Nat} {text : List Char} {collectAll : Bool} {token : Token}
    (h : token ∈ (Scan.ofText file text collectAll).tokens) :
    .ok token ∈ scanEvents file text := by
  cases collectAll with
  | true => exact mem_tokens_collect h
  | false => exact mem_tokens_untilFault h

theorem Scan.collect_tokens (tokens : List Token) :
    Scan.collect (tokens.map .ok) = ⟨tokens, [], none⟩ := by
  simp [Scan.collect, List.filterMap_map, Function.comp_def, Except.toOption]

theorem Scan.untilFault_tokens (tokens : List Token) :
    Scan.untilFault (tokens.map .ok) = ⟨tokens, [], none⟩ := by
  induction tokens with
  | nil => rfl
  | cons token tokens ih => simp [Scan.untilFault, ih]

theorem Scan.untilFault_fault
    (before : List Token)
    (e : LexError)
    (after : List (Except LexError Token)) :
    Scan.untilFault (before.map .ok ++ .error e :: after) = ⟨before, [], some e⟩ := by
  induction before with
  | nil => rfl
  | cons token before ih => simp [Scan.untilFault, ih]

theorem Scan.collect_fault
    (before : List Token)
    (e : LexError)
    (after : List (Except LexError Token)) :
    Scan.collect (before.map .ok ++ .error e :: after) =
      ⟨before ++ (Scan.collect after).tokens, e :: (Scan.collect after).errors, none⟩ := by
  have hskip : List.filterMap Except.toOption (.error e :: after) =
      List.filterMap Except.toOption after :=
    rfl
  simp [Scan.collect, List.filterMap_map, Function.comp_def, Except.toOption, hskip]

/-- There is no fault, or a first one. -/
theorem events_cases (events : List (Except LexError Token)) :
    (∃ tokens : List Token, events = tokens.map .ok) ∨
      ∃ (before : List Token) (e : LexError) (after : List (Except LexError Token)),
        events = before.map .ok ++ .error e :: after := by
  induction events with
  | nil => exact .inl ⟨[], rfl⟩
  | cons event events ih =>
      cases event with
      | error e => exact .inr ⟨[], e, events, rfl⟩
      | ok token =>
          obtain ⟨tokens, rfl⟩ | ⟨before, e, after, rfl⟩ := ih
          · exact .inl ⟨token :: tokens, rfl⟩
          · exact .inr ⟨token :: before, e, after, rfl⟩

/-- The tokens before the first fault are those that end before it begins. -/
theorem tokens_before_fault
    {before : List Token}
    {e : LexError}
    {after : List (Except LexError Token)}
    (h : List.Pairwise Precedes (before.map .ok ++ .error e :: after)) :
    (before ++ (Scan.collect after).tokens).takeWhile (·.span.stop ≤ e.span.start) = before := by
  obtain ⟨-, hafter, hbefore⟩ := List.pairwise_append.mp h
  have hends : ∀ token ∈ before, decide (token.span.stop ≤ e.span.start) = true :=
    fun token htoken => decide_eq_true <|
      (hbefore _ (List.mem_map_of_mem htoken) _ List.mem_cons_self).token_le token rfl
  rw [List.takeWhile_append_of_pos hends]
  refine List.append_right_eq_self.mpr ?_
  cases hlater : (Scan.collect after).tokens with
  | nil => rfl
  | cons token tokens =>
      have hmem : token ∈ (Scan.collect after).tokens := hlater ▸ List.mem_cons_self
      obtain ⟨event, hevent, htoken⟩ := List.mem_filterMap.mp hmem
      refine List.takeWhile_cons_of_neg ?_
      cases event with
      | error e => contradiction
      | ok t =>
          cases htoken
          have hlt := (List.rel_of_pairwise_cons hafter hevent).start_lt
          have hspan := token.span.start_le_stop
          simp only [eventSpan] at hlt
          simp only [decide_eq_true_eq]
          omega

/-- Scanning to the end and scanning to the first fault, compared. -/
theorem Scan.ofText_cases (file : Nat) (text : List Char) :
    (∃ tokens : List Token, scanEvents file text = tokens.map .ok ∧
        Scan.ofText file text false = ⟨tokens, [], none⟩ ∧
        Scan.ofText file text true = ⟨tokens, [], none⟩) ∨
      ∃ (before : List Token) (e : LexError) (after : List (Except LexError Token)),
        scanEvents file text = before.map .ok ++ .error e :: after ∧
        Scan.ofText file text false = ⟨before, [], some e⟩ ∧
        Scan.ofText file text true =
          ⟨before ++ (Scan.collect after).tokens, e :: (Scan.collect after).errors, none⟩ := by
  obtain ⟨tokens, h⟩ | ⟨before, e, after, h⟩ := events_cases (scanEvents file text)
  · refine .inl ⟨tokens, h, ?_, ?_⟩
    · exact (congrArg Scan.untilFault h).trans (Scan.untilFault_tokens tokens)
    · exact (congrArg Scan.collect h).trans (Scan.collect_tokens tokens)
  · refine .inr ⟨before, e, after, h, ?_, ?_⟩
    · exact (congrArg Scan.untilFault h).trans (Scan.untilFault_fault before e after)
    · exact (congrArg Scan.collect h).trans (Scan.collect_fault before e after)

/-- The tokens of a text are given out in either mode if and only if nothing else comes up. -/
theorem Scan.tokenize_eq_ok
    {file : Nat}
    {text : List Char}
    {collectAll : Bool}
    {tokens : List Token} :
    Scan.tokenize file text collectAll = .ok tokens ↔
      scanEvents file text = tokens.map .ok := by
  obtain ⟨found, h, hfalse, htrue⟩ | ⟨before, e, after, h, hfalse, htrue⟩ :=
    Scan.ofText_cases file text
  · have htokenize : Scan.tokenize file text collectAll = .ok found := by
      cases collectAll with
      | true => rw [Scan.tokenize, htrue]; rfl
      | false => rw [Scan.tokenize, hfalse]; rfl
    rw [htokenize, h, List.map_inj_right fun _ _ heq => Except.ok.inj heq, Except.ok.injEq]
  · have hne : scanEvents file text ≠ tokens.map .ok := by
      intro heq
      have hmem : (.error e : Except LexError Token) ∈ tokens.map .ok :=
        heq ▸ h ▸ List.mem_append_right _ List.mem_cons_self
      obtain ⟨token, -, htoken⟩ := List.mem_map.mp hmem
      cases htoken
    refine iff_of_false ?_ hne
    cases collectAll with
    | true => rw [Scan.tokenize, htrue]; exact nofun
    | false => rw [Scan.tokenize, hfalse]; exact nofun

/-- If no tokens are given out, there are faults, and they come up in the text. -/
theorem Scan.tokenize_eq_error
    {file : Nat}
    {text : List Char}
    {collectAll : Bool}
    {errors : List LexError}
    (h : Scan.tokenize file text collectAll = .error errors) :
    errors ≠ [] ∧ ∀ e ∈ errors, .error e ∈ scanEvents file text := by
  obtain ⟨found, -, hfalse, htrue⟩ | ⟨before, first, after, hevents, hfalse, htrue⟩ :=
    Scan.ofText_cases file text
  · cases collectAll with
    | true => rw [Scan.tokenize, htrue] at h; cases h
    | false => rw [Scan.tokenize, hfalse] at h; cases h
  · rw [hevents]
    cases collectAll with
    | true =>
        obtain rfl : first :: (Scan.collect after).errors = errors := by
          simpa [Scan.tokenize, htrue] using h
        refine ⟨nofun, fun e he => List.mem_append_right _ ?_⟩
        rcases List.mem_cons.mp he with rfl | he
        · exact List.mem_cons_self
        · obtain ⟨event, hevent, he⟩ := List.mem_filterMap.mp he
          cases event with
          | ok token => cases he
          | error e' =>
              cases he
              exact List.mem_cons_of_mem _ hevent
    | false =>
        obtain rfl : [first] = errors := by simpa [Scan.tokenize, hfalse] using h
        refine ⟨nofun, fun e he => List.mem_append_right _ ?_⟩
        rw [List.mem_singleton.mp he]
        exact List.mem_cons_self

end Faults

end Lox
