import Lox.Parse

/-!
# Repetitions

Everything that the readers repeat is repeated in one way: as long as a test holds, a turn takes
the state to the next one and says whether there may be another turn. `Parse.repeatWhile` is this
repetition. The theorems here show that the repetitions of the readers are instances of it, so that
what is to be shown of repetitions can be shown once.
-/

namespace Lox.Parse

section Laws

variable {α β : Type}

theorem bind_apply (p : Parse α) (f : α → Parse β) (c : Context) (s : Cursor) :
    (p >>= f) c s =
      match p c s with
      | .ok a s => f a c s
      | .fail e s => .fail e s
      | .abort errors => .abort errors :=
  rfl

/-- One reader after another succeeds if both do. -/
theorem bind_eq_ok {p : Parse α} {f : α → Parse β} {c : Context} {s u : Cursor} {b : β} :
    (p >>= f) c s = .ok b u ↔ ∃ a t, p c s = .ok a t ∧ f a c t = .ok b u := by
  rw [bind_apply]
  cases p c s with
  | ok a t =>
      constructor
      · exact fun h => ⟨a, t, rfl, h⟩
      · rintro ⟨_, _, ⟨⟩, h⟩
        exact h
  | fail e t => simp
  | abort errors => simp

instance : LawfulMonad Parse :=
  LawfulMonad.mk' Parse
    (fun p => by
      funext c s
      change (p >>= fun a => pure a) c s = p c s
      rw [bind_apply]
      cases p c s <;> rfl)
    (fun _ _ => rfl)
    (fun p f h => by
      funext c s
      simp only [bind_apply]
      cases p c s <;> rfl)

/-- The token at the cursor need not be looked at twice. -/
theorem peek_ite (test : TokenKind → Bool) (p : Token → Parse α) (q : Parse α) :
    (peek >>= fun t => if test t.kind then peek >>= p else q) =
      peek >>= fun t => if test t.kind then p t else q := by
  funext c s
  simp only [bind_apply, peek]
  cases test s.current.kind <;> rfl

@[simp] theorem Cursor.errors_advance (s : Cursor) : s.advance.errors = s.errors := by
  unfold advance
  split <;> rfl

theorem Cursor.errors_synchronize (s : Cursor) : s.synchronize.errors = s.errors := by
  unfold synchronize advance
  split <;> rfl

end Laws

variable {σ ρ α : Type}

/-- Take turns as long as the test holds and the last turn allows another one; the result is made
from the state at the end. The list of tokens bounds the number of turns. -/
def repeatWhile
    (test : Parse Bool)
    (turn : σ → Parse (σ × Bool))
    (result : σ → ρ) :
    List Token → σ → Parse ρ
  | [], s => pure (result s)
  | _ :: left, s => do
      if ← test then
        let next ← turn s
        if next.2 then repeatWhile test turn result left next.1 else return result next.1
      else
        return result s

section Items

/-- The turn that reads one more item; there may always be another. -/
def itemTurn (item : Parse α) (done : List α) : Parse (List α × Bool) := do
  let a ← item
  return (a :: done, true)

/-- The turn that reads one more item, after which there is another if a comma follows. -/
def commaTurn (item : Parse α) (done : List α) : Parse (List α × Bool) := do
  let a ← item
  let more ← accept .comma
  return (a :: done, more)

/-- The turn that reads one more item unless there are too many. -/
def countedTurn (what : Counted) (item : Parse α) (done : List α) : Parse (List α × Bool) := do
  if maxArguments ≤ done.length then
    report ⟨.tooMany what, ← peek⟩
  commaTurn item done

theorem manyUntil_eq
    (stop : Parse Bool)
    (item : Parse α)
    (left : List Token)
    (done : List α) :
    manyUntil stop item left done =
      repeatWhile (do return !(← stop)) (itemTurn item) List.reverse left done := by
  induction left generalizing done with
  | nil => rfl
  | cons _ left ih =>
      rw [manyUntil, repeatWhile, bind_assoc]
      congr 1
      funext stopped
      cases stopped with
      | true => rfl
      | false =>
          simp only [itemTurn, pure_bind, bind_assoc, Bool.not_false, if_true, ← ih]
          rfl

theorem listBefore_eq
    (close : TokenKind)
    (item : Parse α)
    (left : List Token)
    (done : List α) :
    listBefore close item left done =
      repeatWhile (do return !(← check close)) (commaTurn item) List.reverse left done := by
  induction left generalizing done with
  | nil => rfl
  | cons _ left ih =>
      rw [listBefore, repeatWhile, bind_assoc]
      congr 1
      funext closed
      cases closed with
      | true => rfl
      | false =>
          simp only [commaTurn, pure_bind, bind_assoc, Bool.not_false, if_true, ← ih]
          rfl

theorem countedList_eq
    (what : Counted)
    (item : Parse α)
    (left : List Token)
    (done : List α) :
    countedList what item left done =
      repeatWhile (pure true) (countedTurn what item) List.reverse left done := by
  induction left generalizing done with
  | nil => rfl
  | cons _ left ih =>
      rw [countedList, repeatWhile, pure_bind]
      simp only [if_true, countedTurn, commaTurn]
      split
      · simp only [pure_bind, bind_assoc, ← ih]
      · simp only [pure_bind, bind_assoc, ← ih]

end Items

section Operators

/-- The turn that joins one more operand to the expression on its left. -/
def operandTurn
    (operand : Parse Expr)
    (join? : TokenKind → Option Join)
    (left : Expr) :
    Parse (Expr × Bool) := do
  match join? (← peek).kind with
  | some join => do
      let _ ← advance
      let right ← operand
      return (join left right (left.span.merge right.span), true)
  | none => fail .expectedExpression

theorem chain_eq
    (operand : Parse Expr)
    (join? : TokenKind → Option Join)
    (tokens : List Token)
    (left : Expr) :
    chain operand join? tokens left =
      repeatWhile (do return (join? (← peek).kind).isSome) (operandTurn operand join?) id tokens
        left := by
  induction tokens generalizing left with
  | nil => rfl
  | cons _ tokens ih =>
      simp only [chain, repeatWhile, operandTurn, bind_assoc, pure_bind, ← ih]
      rw [peek_ite fun kind => (join? kind).isSome]
      congr 1
      funext token
      cases join? token.kind with
      | none => rfl
      | some join => simp only [Option.isSome_some, if_true, bind_assoc, pure_bind]

/-- May a token of this kind follow an expression that is called, looked into or indexed? -/
def startsSuffix : TokenKind → Bool
  | .leftParen | .dot | .leftBracket => true
  | _ => false

/-- An expression with the call, property name or index that follows it. -/
def suffix (g : Grammar) (e : Expr) : Parse Expr := do
  match (← peek).kind with
  | .leftParen => do
      let _ ← advance
      let arguments ← parenthesised .arguments g.expression
      let paren ← require .rightParen "')' after arguments"
      return .call e arguments (e.span.merge paren.span)
  | .dot => do
      let _ ← advance
      let name ← require .identifier "property name after '.'"
      return .get e name.lexeme (e.span.merge name.span)
  | .leftBracket => do
      let _ ← advance
      let index ← g.expression
      let bracket ← require .rightBracket "']' after index"
      return .index e index (e.span.merge bracket.span)
  | _ => fail .expectedExpression

/-- The turn that reads one more suffix; there may always be another. -/
def suffixTurn (g : Grammar) (e : Expr) : Parse (Expr × Bool) := do
  let next ← suffix g e
  return (next, true)

theorem suffixes_eq (g : Grammar) (tokens : List Token) (e : Expr) :
    suffixes g tokens e =
      repeatWhile (do return startsSuffix (← peek).kind) (suffixTurn g) id tokens e := by
  induction tokens generalizing e with
  | nil => rfl
  | cons _ tokens ih =>
      simp only [suffixes, repeatWhile, suffixTurn, suffix, bind_assoc, pure_bind, if_true, ← ih]
      rw [peek_ite startsSuffix]
      congr 1
      funext token
      split
      · next h => simp only [h, startsSuffix, if_true, bind_assoc, pure_bind]
      · next h => simp only [h, startsSuffix, if_true, bind_assoc, pure_bind]
      · next h => simp only [h, startsSuffix, if_true, bind_assoc, pure_bind]
      · next hcall hget hindex =>
          have hstop : startsSuffix token.kind = false := by
            unfold startsSuffix
            split <;> simp_all
          rw [hstop]
          rfl

end Operators

end Lox.Parse
