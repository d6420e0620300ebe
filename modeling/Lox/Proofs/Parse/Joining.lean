import Lox.Proofs.Parse.Locality
import Lox.Proofs.Token.Joining

/-!
# Programs one after the other

If two sequences of tokens are programs, the one followed by the other is a program too, with the
statements of the first and then those of the second, however the places are relocated: the reader
of declarations takes what belongs to the first program and finds itself before the second one.
-/

namespace Lox

namespace Parse

/-- The declarations up to the end of the input. -/
abbrev declarations : List Token → List (Option Stmt) → Parse (List (Option Stmt)) :=
  manyUntil atEnd grammar.declaration

variable {c : Context} {s t : Cursor} {read done : List (Option Stmt)}

/-- Either nothing is left, or there is one more declaration. -/
theorem declarations_eq_ok
    {token : Token}
    {tokens : List Token}
    (h : declarations (token :: tokens) done c s = .ok read t) :
    (s.rest = [] ∧ s = t ∧ read = done.reverse) ∨
      (s.rest ≠ [] ∧ ∃ stmt? s₁, grammar.declaration c s = .ok stmt? s₁ ∧
        declarations tokens (stmt? :: done) c s₁ = .ok read t) := by
  obtain ⟨stopped, _, hstop, h⟩ := bind_eq_ok.mp h
  cases hstop
  split at h
  · next hempty =>
      cases h
      exact .inl ⟨List.isEmpty_iff.mp hempty, rfl, rfl⟩
  · next hempty =>
      obtain ⟨stmt?, s₁, hread, h⟩ := bind_eq_ok.mp h
      exact .inr ⟨fun hnil => hempty (List.isEmpty_iff.mpr hnil), stmt?, s₁, hread, h⟩

theorem declarations_step
    {token : Token}
    {tokens : List Token}
    {stmt? : Option Stmt}
    (hrest : s.rest ≠ [])
    (h : grammar.declaration c s = .ok stmt? t) :
    declarations (token :: tokens) done c s = declarations tokens (stmt? :: done) c t := by
  have hstop : atEnd c s = .ok false s := by
    rw [atEnd, List.isEmpty_eq_false_iff.mpr hrest]
  rw [declarations, manyUntil, bind_apply, hstop]
  change (grammar.declaration >>= _) c s = _
  rw [bind_apply, h]

theorem declaration_beside {r : Relocation} (hr : r.Merges) :
    ReadsBeside r .whole grammar.declaration grammar.declaration :=
  (locality_lawful hr).grammar.declaration

/-- Errors that are not there at the end were never there. -/
theorem errors_of_declarations
    (ht : t.errors = [])
    (tokens : List Token)
    (h : declarations tokens done c s = .ok read t) :
    s.errors = [] := by
  induction tokens generalizing s done with
  | nil =>
      cases h
      exact ht
  | cons token tokens ih =>
      obtain ⟨-, rfl, -⟩ | ⟨-, stmt?, s₁, hread, h⟩ := declarations_eq_ok h
      · exact ht
      · exact ((declaration_beside Relocation.identity_merges).reach hread (ih h)).errors

/-- Where a text of declarations is the beginning of a longer one, they are read in the same way,
and then reading goes on with what follows. -/
theorem declarations_beside
    {r : Relocation}
    (hr : r.Merges)
    (ht : t.errors = [])
    (tokens : List Token)
    (h : declarations tokens done c s = .ok read t)
    (hlength : s.rest.length < tokens.length) :
    t.rest = [] ∧ ∃ new, read = done.reverse ++ new ∧
      ∀ {extra : List Token} (final : Token) (tokens' : List Token) (done' : List (Option Stmt)),
        Separate extra → s.rest.length + extra.length < tokens'.length →
        ∃ tokens'', extra.length < tokens''.length ∧
          declarations tokens' done' c (s.beside r extra final) =
            declarations tokens'' ((move r new).reverse ++ done') c (t.beside r extra final) := by
  induction tokens generalizing s done with
  | nil => exact absurd hlength (Nat.not_lt_zero _)
  | cons token tokens ih =>
      obtain ⟨hrest, rfl, rfl⟩ | ⟨hrest, stmt?, s₁, hread, h⟩ := declarations_eq_ok h
      · refine ⟨hrest, [], (List.append_nil _).symm, fun final tokens' done' _ hlength' => ?_⟩
        exact ⟨tokens', by rw [hrest] at hlength'; simpa using hlength', rfl⟩
      · have hdecl := declaration_beside hr
        have hs₁ := errors_of_declarations ht tokens h
        have hlt := (hdecl.reach hread hs₁).takes (.inr rfl)
        simp only [Extent.whole] at hlt
        simp only [List.length_cons] at hlength
        obtain ⟨htrest, new, rfl, hnew⟩ := ih h (by omega)
        refine ⟨htrest, stmt? :: new, by simp,
          fun {extra} final tokens' done' hseparate hlength' => ?_⟩
        obtain ⟨token', tokens', rfl⟩ := List.exists_cons_of_length_pos
          (Nat.lt_of_le_of_lt (Nat.zero_le _) hlength')
        simp only [List.length_cons] at hlength'
        obtain ⟨tokens'', hlength'', heq⟩ := hnew final tokens' (move r stmt? :: done') hseparate
          (by omega)
        refine ⟨tokens'', hlength'', ?_⟩
        have hsettled : Settled .whole s₁ extra := .inr ⟨rfl, hseparate⟩
        rw [declarations_step (by simp [Cursor.beside, hrest])
          (hdecl.beside final hread hs₁ hsettled), heq]
        simp

theorem grammar_declaration :
    grammar.declaration =
      recovering (declarationBody (Grammar.ofDepth (maxNesting + maxArrowNesting + 1))) :=
  rfl

/-- The declaration at the cursor, and what is known of its first token. -/
theorem declaration_opens
    {stmt? : Option Stmt}
    (h : grammar.declaration c s = .ok stmt? t)
    (ht : t.errors = [])
    (hrest : s.rest ≠ []) :
    continuesStatement s.current.kind = false ∧
      ∀ previous, grammar.declaration c { s with previous := previous } = .ok stmt? t := by
  rw [grammar_declaration] at h ⊢
  obtain ⟨stmt, rfl, hread⟩ := ReadsBeside.of_recovering h ht
  have hopens : OpensAt s.current
      (declarationBody (Grammar.ofDepth (maxNesting + maxArrowNesting + 1))) :=
    .declarationBody _
  refine ⟨hopens.separate hread hrest rfl, fun previous => ?_⟩
  rw [recovering, hopens.fresh previous hread hrest rfl]

/-- It does not matter which token was read before a program. -/
theorem declarations_fresh
    (ht : t.errors = [])
    {tokens : List Token}
    (h : declarations tokens done c s = .ok read t)
    (previous : Token) :
    ∃ t', t'.errors = [] ∧
      declarations tokens done c { s with previous := previous } = .ok read t' := by
  cases tokens with
  | nil =>
      cases h
      exact ⟨{ s with previous := previous }, ht, rfl⟩
  | cons token tokens =>
      obtain ⟨hrest, rfl, rfl⟩ | ⟨hrest, stmt?, s₁, hread, h⟩ := declarations_eq_ok h
      · refine ⟨{ s with previous := previous }, ht, ?_⟩
        rw [declarations, manyUntil, bind_apply, atEnd, hrest]
        rfl
      · have hs₁ := errors_of_declarations ht tokens h
        refine ⟨t, ht, ?_⟩
        rw [declarations_step (s := { s with previous := previous }) hrest
          ((declaration_opens hread hs₁ hrest).2 previous), h]

/-- What begins with a declaration does not go on with a statement before it. -/
theorem separate_of_declarations
    (ht : t.errors = [])
    {token : Token}
    {tokens : List Token}
    (h : declarations (token :: tokens) done c s = .ok read t)
    (r : Relocation) :
    Separate (s.rest.map (move r)) := by
  intro first hfirst
  obtain ⟨hrest, -⟩ | ⟨hrest, stmt?, s₁, hread, h⟩ := declarations_eq_ok h
  · simp [hrest] at hfirst
  · have hseparate := (declaration_opens hread (errors_of_declarations ht tokens h) hrest).1
    rw [List.head?_map] at hfirst
    obtain ⟨token, htoken, rfl⟩ := Option.map_eq_some_iff.mp hfirst
    rw [Cursor.current, List.headD_eq_head?_getD, htoken] at hseparate
    exact hseparate

/-- A semicolon alone is no declaration: the expression before it is missing. -/
theorem one_lt_of_declaration_semicolon
    {stmt? : Option Stmt}
    (h : grammar.declaration c s = .ok stmt? t)
    (ht : t.errors = [])
    (hsemicolon : s.current.kind = .semicolon) :
    1 < s.rest.length := by
  rw [grammar_declaration] at h
  obtain ⟨stmt, -, hread⟩ := ReadsBeside.of_recovering h ht
  rw [declarationBody, bind_apply, peek] at hread
  simp only [hsemicolon] at hread
  rw [statement, nested] at hread
  split at hread
  · cases hread
  · rw [bind_apply, peek] at hread
    simp only [hsemicolon, keywordStatement?] at hread
    have hlawful := locality_lawful Relocation.identity_merges
    have hreads : ReadsBeside .identity .double
        (expressionStatement (.ofDepth (maxNesting + maxArrowNesting + 1)))
        (expressionStatement (.ofDepth (maxNesting + maxArrowNesting + 1))) :=
      hlawful.expressionStatement (hlawful.ofDepth _)
    have htakes := (hreads.reach hread ht).takes (.inr rfl)
    simp only [Extent.double] at htakes
    omega

end Parse

namespace Program

open Parse

/-- What it means that tokens are a program. -/
theorem ofTokens_eq_ok
    {body : List Token}
    {final : Token}
    {collectAll : Bool}
    {program : Program} :
    ofTokens (body ++ [final]) collectAll = .ok program ↔
      ∃ read t, declarations (final :: body) [] (.outermost collectAll)
          ⟨(body ++ [final]).headD final, body, final, []⟩ = .ok read t ∧
        t.errors = [] ∧ program = ⟨read.filterMap id⟩ := by
  unfold ofTokens
  rw [List.getLast?_concat]
  simp only [List.dropLast_concat]
  have hprogram (start : Cursor) (hstart : start.final :: start.rest = final :: body) :
      Parse.program (.outermost collectAll) start =
        match declarations (final :: body) [] (.outermost collectAll) start with
        | .ok read t => .ok (read.filterMap id) t
        | .fail e t => .fail e t
        | .abort errors => .abort errors := by
    rw [← hstart]
    change (declarations (start.final :: start.rest) [] >>= fun read =>
      pure (read.filterMap id)) _ start = _
    rw [bind_apply]
    cases declarations (start.final :: start.rest) [] (.outermost collectAll) start <;> rfl
  rw [hprogram _ rfl]
  cases declarations (final :: body) [] (.outermost collectAll)
      ⟨(body ++ [final]).headD final, body, final, []⟩ with
  | ok read t =>
      have hiff : (if t.errors.isEmpty then Except.ok (Program.mk (read.filterMap id))
          else Except.error t.errors) = .ok program ↔
          t.errors = [] ∧ program = ⟨read.filterMap id⟩ := by
        cases t.errors <;> simp [eq_comm]
      refine hiff.trans ⟨fun h => ⟨read, t, rfl, h⟩, ?_⟩
      rintro ⟨_, _, ⟨⟩, h⟩
      exact h
  | fail e t => simp
  | abort errors => simp

/-- Tokens of one program followed by those of another are a program with the statements of both. -/
theorem ofTokens_append
    {r q : Relocation}
    (hr : r.Merges)
    (hq : q.Merges)
    {body others : List Token}
    {final last : Token}
    {collectAll : Bool}
    {first second : Program}
    (hfirst : ofTokens (body ++ [final]) collectAll = .ok first)
    (hsecond : ofTokens (others ++ [last]) collectAll = .ok second) :
    ofTokens (body.map (move r) ++ (others ++ [last]).map (move q)) collectAll =
      .ok ⟨move r first.statements ++ move q second.statements⟩ := by
  obtain ⟨read, t, hread, ht, rfl⟩ := ofTokens_eq_ok.mp hfirst
  obtain ⟨read', t', hread', ht', rfl⟩ := ofTokens_eq_ok.mp hsecond
  rw [List.map_append, List.map_singleton, ← List.append_assoc, ofTokens_eq_ok]
  obtain ⟨htrest, _, rfl, hnew⟩ := declarations_beside hr ht _ hread (Nat.lt_succ_self _)
  obtain ⟨htrest', _, rfl, hnew'⟩ := declarations_beside hq ht' _ hread' (Nat.lt_succ_self _)
  obtain ⟨tokens, hlength, heq⟩ := hnew (move q last)
    (move q last :: (body.map (move r) ++ others.map (move q))) []
    (separate_of_declarations ht' hread' q) (by simp)
  obtain ⟨tokens', hlength', heq'⟩ := @hnew' [] (move q last) tokens
    ((move r read).reverse ++ []) separate_nil (by simpa using hlength)
  obtain ⟨token, tokens', rfl⟩ := List.exists_cons_of_length_pos hlength'
  -- The second program ends where the whole text ends.
  have hend : declarations (token :: tokens')
      ((move q read').reverse ++ ((move r read).reverse ++ [])) (.outermost collectAll)
      (t'.beside q [] (move q last)) =
        .ok (move r read ++ move q read') (t'.beside q [] (move q last)) := by
    rw [declarations, manyUntil, bind_apply, atEnd, Cursor.beside, htrest']
    simp only [List.map_nil, List.append_nil, List.isEmpty_nil, if_true]
    simp only [← List.reverse_append, List.reverse_reverse]
    rfl
  rw [← heq'] at hend
  -- It is read from where the first program ends.
  obtain ⟨u, hu, hsecond⟩ := declarations_fresh (t := t'.beside q [] (move q last)) rfl hend
    (move r t.previous)
  have hseam : t.beside r (others.map (move q)) (move q last) =
      ⟨move r t.previous, others.map (move q) ++ [], move q last, []⟩ := by
    rw [Cursor.beside, htrest, List.append_nil]
    rfl
  rw [hseam] at heq
  obtain ⟨v, hv, hwhole⟩ := declarations_fresh hu (heq.trans hsecond)
    ((body.map (move r) ++ others.map (move q) ++ [move q last]).headD (move q last))
  refine ⟨_, v, hwhole, hv, ?_⟩
  simp [List.filterMap_map, List.map_filterMap]

theorem ofTokens_nil (final : Token) (collectAll : Bool) :
    ofTokens [final] collectAll = .ok ⟨[]⟩ :=
  @ofTokens_eq_ok [] .. |>.mpr ⟨[], ⟨final, [], final, []⟩, rfl, rfl, rfl⟩

/-- It does not matter where a program ends. -/
theorem ofTokens_final
    {body : List Token}
    {final : Token}
    {collectAll : Bool}
    {program : Program}
    (h : ofTokens (body ++ [final]) collectAll = .ok program)
    (other : Token) :
    ofTokens (body ++ [other]) collectAll = .ok program := by
  have hmerges := Relocation.identity_merges
  have hnil : ofTokens ([] ++ [other]) collectAll = .ok ⟨[]⟩ := ofTokens_nil other collectAll
  have hmove (tokens : List Token) : tokens.map (move .identity) = tokens := List.map_id _
  have hjoined := ofTokens_append hmerges hmerges h hnil
  rw [hmove, hmove, Relocation.identity_move, Relocation.identity_move, List.append_nil] at hjoined
  exact hjoined

/-- A program and one more semicolon are no program. -/
theorem ofTokens_semicolon
    {body : List Token}
    {final semicolon : Token}
    {collectAll : Bool}
    {program : Program}
    (h : ofTokens (body ++ [final]) collectAll = .ok program)
    (hsemicolon : semicolon.kind = .semicolon)
    (other : Token)
    (more : Program) :
    ofTokens (body ++ [semicolon, other]) collectAll ≠ .ok more := by
  intro hmore
  obtain ⟨read, t, hread, ht, -⟩ := ofTokens_eq_ok.mp h
  have hbody : body ++ [semicolon, other] = (body ++ [semicolon]) ++ [other] := by simp
  rw [hbody, ofTokens_eq_ok] at hmore
  obtain ⟨read', t', hread', ht', -⟩ := hmore
  obtain ⟨htrest, new, -, hnew⟩ :=
    declarations_beside Relocation.identity_merges ht _ hread (Nat.lt_succ_self _)
  have hseparate : Separate [semicolon] := by simp [Separate, hsemicolon, continuesStatement]
  obtain ⟨tokens, hlength, heq⟩ := hnew other (other :: (body ++ [semicolon])) [] hseparate (by simp)
  obtain ⟨token, tokens, rfl⟩ := List.exists_cons_of_length_pos (Nat.zero_lt_of_lt hlength)
  -- The declarations before the semicolon are read, and then nothing is left but the semicolon.
  obtain ⟨u, hu, hfresh⟩ := declarations_fresh ht' hread' (move .identity ((body ++ [final]).headD final))
  have hstart : Cursor.beside ⟨(body ++ [final]).headD final, body, final, []⟩ .identity [semicolon]
      other = ⟨move .identity ((body ++ [final]).headD final), body ++ [semicolon], other, []⟩ := by
    have hmove : body.map (move .identity) = body := List.map_id _
    rw [Cursor.beside, hmove]
  rw [hstart, hfresh] at heq
  have hleft : (t.beside .identity [semicolon] other).rest = [semicolon] := by
    rw [Cursor.beside, htrest]
    rfl
  obtain ⟨hnil, -⟩ | ⟨-, stmt?, v, hdeclaration, hlater⟩ := declarations_eq_ok heq.symm
  · rw [hleft] at hnil
    cases hnil
  · have hv := errors_of_declarations hu tokens hlater
    have hlong := one_lt_of_declaration_semicolon hdeclaration hv
      (by rw [Cursor.current, hleft]; exact hsemicolon)
    rw [hleft] at hlong
    exact Nat.lt_irrefl 1 hlong

/-- What it means that a text is a program. -/
theorem ofText_eq_ok
    {file : Nat}
    {text : List Char}
    {collectAll : Bool}
    {program : Program} :
    ofText file text collectAll = .ok program ↔
      ∃ tokens : List Token, scanEvents file text = tokens.map .ok ∧
        ofTokens tokens collectAll = .ok program := by
  unfold ofText
  cases htokens : Scan.tokenize file text collectAll with
  | error errors =>
      refine ⟨nofun, ?_⟩
      rintro ⟨tokens, hevents, -⟩
      rw [Scan.tokenize_eq_ok.mpr hevents] at htokens
      cases htokens
  | ok tokens =>
      have hevents := Scan.tokenize_eq_ok.mp htokens
      constructor
      · intro h
        refine ⟨tokens, hevents, ?_⟩
        cases hprogram : ofTokens tokens collectAll with
        | ok program => simpa [hprogram] using h
        | error errors => simp [hprogram] at h
      · rintro ⟨others, hothers, h⟩
        have hothers : Scan.tokenize file text collectAll = .ok others :=
          Scan.tokenize_eq_ok.mpr hothers
        obtain rfl : tokens = others := by simpa [htokens] using hothers
        simp only [h]

/-- A text registered under another number is the same program but for that number. -/
theorem ofText_exchange
    {file : Nat}
    {text : List Char}
    {collectAll : Bool}
    {program : Program}
    (h : ofText file text collectAll = .ok program)
    (file' : Nat) :
    ofText file' text collectAll = .ok ⟨move (.exchange file file') program.statements⟩ := by
  obtain ⟨tokens, hevents, htokens⟩ := ofText_eq_ok.mp h
  refine ofText_eq_ok.mpr ⟨_, scanEvents_exchange hevents file', ?_⟩
  rw [tokens_eq_concat hevents] at htokens ⊢
  have hmerges := Relocation.exchange_merges file file'
  have hnil : ofTokens ([] ++ [endToken file text]) collectAll = .ok ⟨[]⟩ := ofTokens_nil ..
  simpa using ofTokens_append hmerges hmerges htokens hnil

/-- If a text is a program with and without a semicolon behind it, the semicolon stands in a comment
and the program is the same. -/
theorem ofText_semicolon
    {file : Nat}
    {text : List Char}
    {collectAll : Bool}
    {program more : Program}
    (h : ofText file text collectAll = .ok program)
    (hmore : ofText file (text ++ [';']) collectAll = .ok more) :
    EndsInComment text ∧ more = program := by
  obtain ⟨tokens, hevents, htokens⟩ := ofText_eq_ok.mp h
  obtain ⟨others, hothers, hmore⟩ := ofText_eq_ok.mp hmore
  rw [tokens_eq_concat hevents] at htokens
  rcases scanEvents_append_semicolon hevents with ⟨semicolon, hsemicolon, hlonger⟩ | ⟨hcomment, hlonger⟩
  · obtain rfl := List.map_injective_iff.mpr (fun _ _ => Except.ok.inj) (hothers.symm.trans hlonger)
    exact absurd hmore (ofTokens_semicolon htokens hsemicolon _ more)
  · obtain rfl := List.map_injective_iff.mpr (fun _ _ => Except.ok.inj) (hothers.symm.trans hlonger)
    rw [ofTokens_final htokens] at hmore
    exact ⟨hcomment, (Except.ok.inj hmore).symm⟩

/-- A text, a line feed and another text are a program with the statements of both, of which those
of the second text stand further on and further down. -/
theorem ofText_append
    {file : Nat}
    {text more : List Char}
    {collectAll : Bool}
    {first second : Program}
    (hfirst : ofText file text collectAll = .ok first)
    (hsecond : ofText file more collectAll = .ok second) :
    ofText file (text ++ '\n' :: more) collectAll =
      .ok ⟨first.statements ++
        move (.shift (text.length + 1) (Position.first.after text).line) second.statements⟩ := by
  obtain ⟨tokens, hevents, htokens⟩ := ofText_eq_ok.mp hfirst
  obtain ⟨others, hmore, hothers⟩ := ofText_eq_ok.mp hsecond
  refine ofText_eq_ok.mpr ⟨_, scanEvents_append hevents hmore, ?_⟩
  rw [tokens_eq_concat hevents] at htokens
  rw [tokens_eq_concat hmore] at hothers ⊢
  have hjoined := ofTokens_append Relocation.identity_merges
    (Relocation.shift_merges (text.length + 1) (Position.first.after text).line) htokens hothers
  have hbody : tokens.dropLast.map (move .identity) = tokens.dropLast :=
    List.map_id _
  rwa [hbody, Relocation.identity_move] at hjoined

end Program

end Lox
