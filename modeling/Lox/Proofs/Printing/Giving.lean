import Lox.Proofs.Parse.Repetition

/-!
# What readers give

`Gives c w rest p Q` says of a reader in a context that, if the tokens `w` are ahead and then those
of `rest`, it succeeds without an error, takes `w` and nothing else, and gives what satisfies `Q`.
The rules follow the ways in which readers are built; a reader that looks at the next token without
taking it finds it in `w` or, when `w` is at its end, in `rest`.
-/

namespace Lox.Parse

/-- With these tokens ahead, the reader takes the first ones and gives what satisfies the
condition. -/
structure Gives
    {α : Type}
    (c : Context)
    (w rest : List Token)
    (p : Parse α)
    (Q : α → Prop) :
    Prop where
  run : ∀ s : Cursor, s.rest = w ++ rest →
    ∃ a t, p c s = .ok a t ∧ t.rest = rest ∧ t.errors = s.errors ∧ Q a

namespace Gives

variable {α β : Type} {c : Context} {w u v rest later : List Token} {token next : Token}
variable {p : Parse α} {f : α → Parse β} {Q R : α → Prop} {S : β → Prop}

section Rules

theorem pure {a : α} (h : Q a) : Gives c [] rest (Pure.pure a) Q where
  run s hs := ⟨a, s, rfl, hs, rfl, h⟩

theorem bind
    (hp : Gives c u (v ++ rest) p R)
    (hf : ∀ a, R a → Gives c v rest (f a) S) :
    Gives c (u ++ v) rest (p >>= f) S where
  run s hs := by
    obtain ⟨a, t, hpa, ht, herrors, hR⟩ := hp.run s (by rw [hs, List.append_assoc])
    obtain ⟨b, t', hfb, ht', herrors', hS⟩ := (hf a hR).run t ht
    exact ⟨b, t', bind_eq_ok.mpr ⟨a, t, hpa, hfb⟩, ht', herrors'.trans herrors, hS⟩

/-- The first of two readers takes everything. -/
theorem bind_last
    (hp : Gives c w rest p R)
    (hf : ∀ a, R a → Gives c [] rest (f a) S) :
    Gives c w rest (p >>= f) S := by
  have h := bind (v := []) hp hf
  rwa [List.append_nil] at h

/-- The first of two readers takes nothing. -/
theorem bind_first
    (hp : Gives c [] (w ++ rest) p R)
    (hf : ∀ a, R a → Gives c w rest (f a) S) :
    Gives c w rest (p >>= f) S :=
  bind (u := []) hp hf

theorem mono (hp : Gives c w rest p R) (h : ∀ a, R a → Q a) : Gives c w rest p Q where
  run s hs := by
    obtain ⟨a, t, hpa, ht, herrors, hR⟩ := hp.run s hs
    exact ⟨a, t, hpa, ht, herrors, h a hR⟩

end Rules

section Primitives

theorem remaining {f : List Token → Parse β} (hf : Gives c w rest (f (w ++ rest)) S) :
    Gives c w rest (Parse.remaining >>= f) S where
  run s hs := by
    obtain ⟨b, t, h⟩ := hf.run s hs
    rw [← hs] at h
    exact ⟨b, t, h⟩

theorem budget
    {f : List Token → Parse β}
    (hf : ∀ tokens : List Token, (w ++ rest).length < tokens.length → Gives c w rest (f tokens) S) :
    Gives c w rest (Parse.budget >>= f) S where
  run s hs := (hf (s.final :: s.rest) (by simp [hs])).run s hs

theorem previous {f : Token → Parse β} (hf : ∀ token, Gives c w rest (f token) S) :
    Gives c w rest (Parse.previous >>= f) S where
  run s hs := (hf s.previous).run s hs

theorem spanFrom {first : Token} {f : Span → Parse β} (hf : ∀ span, Gives c w rest (f span) S) :
    Gives c w rest (Parse.spanFrom first >>= f) S where
  run s hs := (hf (first.span.merge s.previous.span)).run s hs

theorem atEnd : Gives c [] rest Parse.atEnd (· = rest.isEmpty) where
  run s hs := ⟨rest.isEmpty, s, by rw [Parse.atEnd, hs, List.nil_append], hs, rfl, rfl⟩

/-- The token at the cursor is the first one ahead. -/
theorem peek
    {f : Token → Parse β}
    (hw : (w ++ rest).head? = some token)
    (hf : Gives c w rest (f token) S) :
    Gives c w rest (Parse.peek >>= f) S where
  run s hs := by
    obtain ⟨b, t, h⟩ := hf.run s hs
    have hcurrent : s.current = token := by
      rw [Cursor.current, List.headD_eq_head?_getD, hs, hw, Option.getD_some]
    rw [← hcurrent] at h
    exact ⟨b, t, h⟩

theorem check
    {kind : TokenKind}
    {f : Bool → Parse β}
    (hw : (w ++ rest).head? = some token)
    (hf : Gives c w rest (f (token.kind == kind)) S) :
    Gives c w rest (Parse.check kind >>= f) S where
  run s hs := by
    obtain ⟨b, t, h⟩ := hf.run s hs
    have hkind : (s.rest.head?.map (·.kind) == some kind) = (token.kind == kind) := by
      rw [hs, hw]
      rfl
    rw [← hkind] at h
    exact ⟨b, t, h⟩

theorem checkNext {kind : TokenKind} {f : Bool → Parse β} (hf : ∀ b, Gives c w rest (f b) S) :
    Gives c w rest (Parse.checkNext kind >>= f) S where
  run s hs := (hf _).run s hs

theorem advance : Gives c [token] rest Parse.advance (· = token) where
  run s hs := by
    refine ⟨token, s.advance, ?_, ?_, Cursor.errors_advance s, rfl⟩ <;>
      simp [Parse.advance, Cursor.advance, hs]

theorem accept {kind : TokenKind} (htoken : token.kind = kind) :
    Gives c [token] rest (Parse.accept kind) (· = true) := by
  refine check rfl ?_
  rw [htoken, beq_self_eq_true]
  exact bind_last advance fun _ _ => pure rfl

theorem accept_other {kind : TokenKind} (hnext : next.kind ≠ kind) :
    Gives c [] (next :: later) (Parse.accept kind) (· = false) := by
  refine check rfl ?_
  rw [beq_false_of_ne hnext]
  exact pure rfl

theorem require {kind : TokenKind} {expected : String} (htoken : token.kind = kind) :
    Gives c [token] rest (Parse.require kind expected) (· = token) := by
  refine check rfl ?_
  rw [htoken, beq_self_eq_true]
  exact advance

end Primitives

section Contexts

theorem nested
    (hdepth : c.depth < maxNesting)
    (hp : Gives { c with depth := c.depth + 1 } w rest p Q) :
    Gives c w rest (Parse.nested p) Q where
  run s hs := by
    rw [Parse.nested, if_neg (Nat.not_le_of_lt hdepth)]
    exact hp.run s hs

theorem recovering {p : Parse Stmt} {Q : Stmt → Prop} (hp : Gives c w rest p Q) :
    Gives c w rest (Parse.recovering p) fun stmt? => ∃ stmt, stmt? = some stmt ∧ Q stmt where
  run s hs := by
    obtain ⟨stmt, t, hstmt, ht, herrors, hQ⟩ := hp.run s hs
    refine ⟨some stmt, t, ?_, ht, herrors, stmt, rfl, hQ⟩
    rw [Parse.recovering, hstmt]

end Contexts

end Gives

end Lox.Parse
