import Lox.Parse.Statement

/-!
# Descent with counters

A second way to read tokens, close to a machine. A descent keeps its place in the sequence of tokens
as an index, and what surrounds the place as counters, which the readers change and must change back
however they end. Its loops and its calls have no bound of their own: a descent that is given too few
turns or calls is still `running`. What a reader of `Lox.Parse` has by construction, that it ends and
leaves its context alone, is therefore something to be shown of a descent.
-/

namespace Lox

namespace Descent

/-- The last token ends the input, and no other token does. -/
def EndsOnce (tokens : List Token) : Prop :=
  tokens.getLast?.map (·.kind) = some .endOfInput ∧
    ∀ token ∈ tokens.dropLast, token.kind ≠ .endOfInput

instance (tokens : List Token) : Decidable (EndsOnce tokens) :=
  inferInstanceAs (Decidable (_ ∧ _))

theorem EndsOnce.ne_nil {tokens : List Token} (h : EndsOnce tokens) : tokens ≠ [] := by
  rintro rfl
  cases h.1

theorem EndsOnce.eq_concat {tokens : List Token} (h : EndsOnce tokens) :
    ∃ init final, tokens = init ++ [final] ∧ final.kind = .endOfInput ∧
      ∀ token ∈ init, token.kind ≠ .endOfInput := by
  have hlast := h.1
  rw [List.getLast?_eq_some_getLast h.ne_nil] at hlast
  exact ⟨_, _, (List.dropLast_concat_getLast h.ne_nil).symm, Option.some.inj hlast, h.2⟩

/-- Which errors are wanted. -/
inductive Mode
  /-- The first one ends the descent. -/
  | first
  /-- All of them. -/
  | all
  /-- All of them, but misplaced constructs are no errors. -/
  | lenient
deriving DecidableEq

/-- Does reading go on after an error? -/
def Mode.collectAll : Mode → Bool
  | first => false
  | all | lenient => true

/-- Are misplaced constructs errors? -/
def Mode.reportsMisplaced : Mode → Bool
  | first | all => true
  | lenient => false

/-- What stays the same during a descent. -/
structure Setting where
  tokens : List Token
  ends : EndsOnce tokens
  mode : Mode

/-- The token at the end of the input. -/
def Setting.final (T : Setting) : Token :=
  T.tokens.getLast T.ends.ne_nil

/-- The token with this index; behind the end it is the last one. -/
def Setting.tokenAt (T : Setting) (index : Nat) : Token :=
  T.tokens.getD index T.final

/-- What surrounds the place that has been reached. -/
structure Counters where
  functionDepth : Nat
  /-- The loops between the place and the innermost function. -/
  loopDepth : Nat
  /-- The classes, innermost first: does each have a superclass? -/
  classStack : List Bool
  /-- The number of enclosing statements and expressions. -/
  depth : Nat
  /-- The number of enclosing arrow functions whose bodies are expressions. -/
  arrows : Nat
deriving DecidableEq

/-- The counters outside of every construct. -/
def Counters.outermost : Counters :=
  ⟨0, 0, [], 0, 0⟩

/-- How far a descent has come. -/
structure State where
  /-- The index of the token at the cursor. -/
  current : Nat
  /-- The errors that have been recorded. -/
  errors : List ParseError
  counters : Counters

/-- Add an error to those that have been recorded. -/
def State.record (s : State) (e : ParseError) : State :=
  { s with errors := s.errors ++ [e] }

/-- Where a descent begins. -/
def State.start : State :=
  ⟨0, [], .outermost⟩

end Descent

/-- How a descent ends: with a result, with an error that is raised, or for good. It is `running` if
it needs more turns or calls than it was given. -/
inductive Descent.Outcome (α : Type)
  | returned (value : α) (s : Descent.State)
  | raised (e : ParseError) (s : Descent.State)
  | aborted (s : Descent.State)
  | running

/-- A reader that changes its state. -/
def Descent (α : Type) :=
  Descent.Setting → Descent.State → Descent.Outcome α

namespace Descent

instance : Monad Descent where
  pure a := fun _ s => .returned a s
  bind p f := fun T s =>
    match p T s with
    | .returned a s => f a T s
    | .raised e s => .raised e s
    | .aborted s => .aborted s
    | .running => .running

section Laws

variable {α β : Type}

theorem bind_apply (m : Descent α) (f : α → Descent β) (T : Setting) (s : State) :
    (m >>= f) T s =
      match m T s with
      | .returned a s => f a T s
      | .raised e s => .raised e s
      | .aborted s => .aborted s
      | .running => .running :=
  rfl

/-- One reader after another returns if both do. -/
theorem bind_eq_returned {m : Descent α} {f : α → Descent β} {T : Setting} {s u : State} {b : β} :
    (m >>= f) T s = .returned b u ↔ ∃ a t, m T s = .returned a t ∧ f a T t = .returned b u := by
  rw [bind_apply]
  cases m T s with
  | returned a t =>
      constructor
      · exact fun h => ⟨a, t, rfl, h⟩
      · rintro ⟨_, _, ⟨⟩, h⟩
        exact h
  | raised e t => simp
  | aborted t => simp
  | running => simp

end Laws

section Primitives

/-- The turns or calls that were given are used up. -/
def unfinished {α : Type} : Descent α :=
  fun _ _ => .running

/-- What surrounds the cursor. -/
def counters : Descent Counters :=
  fun _ s => .returned s.counters s

/-- The token at the cursor. -/
def peek : Descent Token :=
  fun T s => .returned (T.tokenAt s.current) s

/-- The token before the cursor; at the beginning it is the first one. -/
def previous : Descent Token :=
  fun T s => .returned (T.tokenAt (s.current - 1)) s

/-- Is the cursor at the end of the input? -/
def atEnd : Descent Bool :=
  fun T s => .returned ((T.tokenAt s.current).kind == .endOfInput) s

/-- Is the token at the cursor of this kind? At the end of the input there is none of any kind. -/
def check (kind : TokenKind) : Descent Bool :=
  fun T s =>
    let found := (T.tokenAt s.current).kind
    .returned (found != .endOfInput && found == kind) s

/-- Is the token after the cursor of this kind? -/
def checkNext (kind : TokenKind) : Descent Bool :=
  fun T s => .returned ((T.tokens[s.current + 1]?.map (·.kind)) == some kind) s

/-- Do the tokens from the one after the cursor on make it the beginning of an arrow function? -/
def startsArrow : Descent Bool :=
  fun T s => .returned (Parse.startsArrow true (T.tokens.drop (s.current + 1))) s

/-- Read the token at the cursor; the end of the input is not passed. -/
def advance : Descent Token :=
  fun T s =>
    if (T.tokenAt s.current).kind == .endOfInput then previous T s
    else previous T { s with current := s.current + 1 }

/-- Read the token at the cursor if it is of this kind. -/
def accept (kind : TokenKind) : Descent Bool := do
  if ← check kind then
    let _ ← advance
    return true
  else
    return false

/-- Raise an error at the cursor. -/
def fail {α : Type} (fault : ParseFault) : Descent α :=
  fun T s => .raised ⟨fault, T.tokenAt s.current⟩ s

/-- Read a token of this kind, which is called `expected`; `reason` replaces the message if it is
missing. -/
def consume (kind : TokenKind) (expected : String) (reason : Option String) : Descent Token := do
  if ← check kind then advance else fail (.expectedToken expected reason)

/-- Read a token of this kind, which is called `expected`. -/
def require (kind : TokenKind) (expected : String) : Descent Token :=
  consume kind expected none

/-- Record an error; when only the first one is wanted, the descent ends. -/
def report (e : ParseError) : Descent Unit :=
  fun T s =>
    let s := s.record e
    if T.mode.collectAll then .returned () s else .aborted s

/-- Report that the construct at `token` is misplaced, if it is and if this is an error. -/
def reportIf (isMisplaced : Bool) (construct : Misplaced) (token : Token) : Descent Unit :=
  fun T s =>
    if T.mode.reportsMisplaced && isMisplaced then report ⟨.misplaced construct, token⟩ T s
    else .returned () s

/-- The code is nested too deeply at the cursor. -/
def tooDeep {α : Type} : Descent α :=
  fun T s => .aborted (s.record ⟨.nestedTooDeeply, T.tokenAt s.current⟩)

/-- The span from the token `start` to the token that was read last. -/
def spanFrom (start : Token) : Descent Span :=
  return start.span.merge (← previous).span

end Primitives

section Counting

variable {α : Type}

/-- Change the state in which a descent ends, whether it ends with a result or not. -/
def Outcome.finally (leave : State → State) : Outcome α → Outcome α
  | returned a s => returned a (leave s)
  | raised e s => raised e (leave s)
  | aborted s => aborted (leave s)
  | running => running

/-- Change the counters for as long as `p` runs; `leave` is given the counters of before and those
at the end of `p`. -/
def counting
    (enter : Counters → Counters)
    (leave : Counters → Counters → Counters)
    (p : Descent α) :
    Descent α :=
  fun T s =>
    (p T { s with counters := enter s.counters }).finally fun t =>
      { t with counters := leave s.counters t.counters }

/-- Read one level deeper, unless the limit is reached. -/
def nested (p : Descent α) : Descent α := do
  if maxNesting ≤ (← counters).depth then
    tooDeep
  else
    counting (fun k => { k with depth := k.depth + 1 })
      (fun _ k => { k with depth := k.depth - 1 }) p

/-- Read the body of a function: loops outside of it do not count. -/
def inFunction (p : Descent α) : Descent α :=
  counting (fun k => { k with functionDepth := k.functionDepth + 1, loopDepth := 0 })
    (fun before k =>
      { k with functionDepth := k.functionDepth - 1, loopDepth := before.loopDepth }) p

/-- Read the body of an arrow function that is an expression. -/
def nestedArrow (p : Descent α) : Descent α := do
  if maxArrowNesting ≤ (← counters).arrows then
    tooDeep
  else
    counting (fun k => { k with arrows := k.arrows + 1 })
      (fun _ k => { k with arrows := k.arrows - 1 }) (inFunction p)

/-- Read the body of a loop. -/
def inLoop (p : Descent α) : Descent α :=
  counting (fun k => { k with loopDepth := k.loopDepth + 1 })
    (fun _ k => { k with loopDepth := k.loopDepth - 1 }) p

/-- Read the methods of a class. -/
def inClass (hasSuperclass : Bool) (p : Descent α) : Descent α :=
  counting (fun k => { k with classStack := hasSuperclass :: k.classStack })
    (fun _ k => { k with classStack := k.classStack.tail }) p

end Counting

section Loops

variable {σ ρ α : Type}

/-- Take turns as long as the test holds and the last turn allows another one. Nothing but the turns
that are given bounds their number. -/
def repeatWhile
    (test : Descent Bool)
    (turn : σ → Descent (σ × Bool))
    (result : σ → ρ) :
    Nat → σ → Descent ρ
  | 0, _ => unfinished
  | turns + 1, s => do
      if ← test then
        let next ← turn s
        if next.2 then repeatWhile test turn result turns next.1 else return result next.1
      else
        return result s

variable (turns : Nat)

/-- Read items until `stop` holds. -/
def manyUntil (stop : Descent Bool) (item : Descent α) : Descent (List α) :=
  repeatWhile (do return !(← stop)) (fun done => do return ((← item) :: done, true)) List.reverse
    turns []

/-- The turn that reads one more item, after which there is another if a comma follows. -/
def commaTurn (item : Descent α) (done : List α) : Descent (List α × Bool) := do
  let a ← item
  return (a :: done, ← accept .comma)

/-- Items separated by commas before a closing token; a comma may follow the last one. -/
def listBefore (close : TokenKind) (item : Descent α) : Descent (List α) :=
  repeatWhile (do return !(← check close)) (commaTurn item) List.reverse turns []

/-- The turn that reads one more item; every item beyond the limit is an error. -/
def countedTurn (what : Counted) (item : Descent α) (done : List α) :
    Descent (List α × Bool) := do
  if maxArguments ≤ done.length then
    report ⟨.tooMany what, ← peek⟩
  commaTurn item done

/-- Items between parentheses, of which the closing one is not read. -/
def parenthesised (what : Counted) (item : Descent α) : Descent (List α) := do
  if ← check .rightParen then
    return []
  else
    repeatWhile (return true) (countedTurn what item) List.reverse turns []

/-- The names of parameters. -/
def parameters : Descent (List String) :=
  parenthesised turns .parameters do
    return (← require .identifier "parameter name").lexeme

/-- Is the cursor at no statement boundary? -/
def withinStatement : Descent Bool := do
  if ← atEnd then
    return false
  else
    return !(Parse.endsStatement (← previous).kind || Parse.startsStatement (← peek).kind)

/-- Go on to the next statement boundary after at least one token. -/
def synchronize : Descent Unit := do
  let _ ← advance
  repeatWhile withinStatement (fun _ => do
    let _ ← advance
    return ((), true)) id turns ()

/-- Read a statement; if an error is raised, report it and go on at the next statement boundary. -/
def recovering (p : Descent Stmt) : Descent (Option Stmt) :=
  fun T s =>
    match p T s with
    | .returned stmt s => .returned (some stmt) s
    | .raised e s =>
        (do
          report e
          synchronize turns
          return none : Descent (Option Stmt)) T s
    | .aborted s => .aborted s
    | .running => .running

end Loops

end Descent

end Lox
