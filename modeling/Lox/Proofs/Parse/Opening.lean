import Lox.Parse
import Lox.Proofs.Parse.Repetition

/-!
# How statements open

What a declaration is read as depends on the tokens from the cursor on, not on the one that was read
before; and no declaration begins with a keyword that goes on with another statement.
-/

namespace Lox.Parse

/-- The kinds of tokens by which a statement may go on that could have ended before. -/
def continuesStatement : TokenKind → Bool
  | .elseKeyword | .catchKeyword | .finallyKeyword => true
  | _ => false

/-- What a reader reads from this token on it also reads if another token was read before, and the
token does not go on with a statement. -/
structure OpensAt {α : Type} (token : Token) (p : Parse α) : Prop where
  separate : ∀ {c : Context} {s t : Cursor} {a : α},
    p c s = .ok a t → s.rest ≠ [] → s.current = token → continuesStatement token.kind = false
  fresh : ∀ {c : Context} {s t : Cursor} {a : α} (previous : Token),
    p c s = .ok a t → s.rest ≠ [] → s.current = token →
      p c { s with previous := previous } = .ok a t

namespace OpensAt

variable {α β : Type} {token : Token} {p : Parse α} {f : α → Parse β}

section Rules

theorem of_never (h : ∀ c s a t, p c s ≠ .ok a t) : OpensAt token p where
  separate hp := absurd hp (h _ _ _ _)
  fresh _ hp := absurd hp (h _ _ _ _)

theorem bind (hp : OpensAt token p) : OpensAt token (p >>= f) where
  separate h hrest htoken := by
    obtain ⟨a, t, hpa, -⟩ := bind_eq_ok.mp h
    exact hp.separate hpa hrest htoken
  fresh previous h hrest htoken := by
    obtain ⟨a, t, hpa, hfa⟩ := bind_eq_ok.mp h
    exact bind_eq_ok.mpr ⟨a, t, hp.fresh previous hpa hrest htoken, hfa⟩

theorem peek {f : Token → Parse β} (hf : OpensAt token (f token)) :
    OpensAt token (Parse.peek >>= f) where
  separate h hrest htoken := by
    subst htoken
    exact hf.separate h hrest rfl
  fresh previous h hrest htoken := by
    subst htoken
    exact hf.fresh previous h hrest rfl

theorem advance
    {f : Token → Parse β}
    (htoken : continuesStatement token.kind = false) :
    OpensAt token (Parse.advance >>= f) where
  separate _ _ _ := htoken
  fresh {c s t a} previous h hrest _ := by
    have hsame : Cursor.advance { s with previous := previous } = s.advance := by
      cases hlist : s.rest with
      | nil => contradiction
      | cons next rest => simp [Cursor.advance, hlist]
    rw [← h, bind_apply, bind_apply, Parse.advance, Parse.advance, hsame]

theorem checkNext {kind : TokenKind} {f : Bool → Parse β} (hf : ∀ b, OpensAt token (f b)) :
    OpensAt token (Parse.checkNext kind >>= f) where
  separate h := (hf _).separate h
  fresh previous h := (hf _).fresh previous h

theorem remaining {f : List Token → Parse β} (hf : ∀ tokens, OpensAt token (f tokens)) :
    OpensAt token (Parse.remaining >>= f) where
  separate h := (hf _).separate h
  fresh previous h := (hf _).fresh previous h

theorem nested (hp : OpensAt token p) : OpensAt token (Parse.nested p) where
  separate h := by
    unfold Parse.nested at h
    split at h
    · cases h
    · exact hp.separate h
  fresh previous h := by
    unfold Parse.nested at h ⊢
    split at h
    · cases h
    · next hdepth =>
        simp only [if_neg hdepth]
        exact hp.fresh previous h

end Rules

section Expressions

variable (g : Grammar)

theorem primary : OpensAt token (Parse.primary g) := by
  refine peek ?_
  split
  case h_10 hkind =>
    refine remaining fun tokens => ?_
    split
    · exact advance (by rw [hkind]; rfl)
    · exact advance (by rw [hkind]; rfl)
  case h_13 => exact of_never fun _ _ _ _ h => by cases h
  all_goals
    next hkind => exact advance (by rw [hkind]; rfl)

theorem unary : OpensAt token (Parse.unary g) := by
  refine peek ?_
  split
  · next op hop =>
      refine advance ?_
      cases hkind : token.kind <;> simp_all [unaryOp?, continuesStatement]
  · exact (primary g).bind.bind

theorem leftAssociative
    {operand : Parse Expr}
    (join? : TokenKind → Option Join)
    (h : OpensAt token operand) :
    OpensAt token (Parse.leftAssociative operand join?) :=
  h.bind

theorem logicalOr : OpensAt token (Parse.logicalOr g) :=
  leftAssociative _ <| leftAssociative _ <| leftAssociative _ <| leftAssociative _ <|
    leftAssociative _ <| leftAssociative _ <| unary g

theorem assignment : OpensAt token (Parse.assignment g) :=
  (logicalOr g).bind.bind

theorem expression (depth : Nat) : OpensAt token (Grammar.ofDepth depth).expression := by
  cases depth with
  | zero => exact nested (of_never fun _ _ _ _ h => by cases h)
  | succ depth => exact nested (assignment _)

end Expressions

section Statements

theorem statement (depth : Nat) : OpensAt token (Parse.statement (Grammar.ofDepth depth)) := by
  refine nested (peek ?_)
  split
  · next read hread =>
      refine advance ?_
      cases hkind : token.kind <;> simp_all [keywordStatement?, continuesStatement]
  · exact (expression depth).bind

theorem declarationBody (depth : Nat) :
    OpensAt token (Parse.declarationBody (Grammar.ofDepth depth)) := by
  refine peek ?_
  split
  · next hkind => exact advance (by rw [hkind]; rfl)
  · next hkind => exact advance (by rw [hkind]; rfl)
  · next hkind =>
      refine checkNext fun named => ?_
      cases named with
      | true => exact advance (by rw [hkind]; rfl)
      | false => exact statement depth
  · next hkind => exact advance (by rw [hkind]; rfl)
  · exact statement depth

end Statements

end OpensAt

end Lox.Parse
