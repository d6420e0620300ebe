import Lox.Proofs.Parse.Opening
import Lox.Proofs.Tree.Relocation

/-!
# Comparing two ways to read

A `Comparison` relates a reader to another one that reads the same in other circumstances: in
another mode, at another place of a longer text, or both. What the second one reads is what the
first one reads, relocated. `Comparison.Lawful` lists what is to be shown of a comparison: that it
is kept by the ways in which readers are built. That every reader of the language is then related
to itself is shown once, in `Lox.Proofs.Parse.Comparison.Expression` and `Statement`.

A comparison may depend on how much is read. An `Extent` says how many tokens a reader takes at
least, and whether it is *closed*: whether it knows the end of what it reads by the last token it
takes, or by the fact that no clause follows that would belong to it. An expression is not closed,
for an operator might follow.
-/

namespace Lox

instance : Relocatable ParseFault :=
  ⟨fun r fault =>
    match fault with
    | .invalidTarget target => .invalidTarget (r.span target)
    | fault => fault⟩

instance : Relocatable ParseError :=
  ⟨fun r e => ⟨move r e.fault, move r e.token⟩⟩

namespace Parse

/-- How much a reader reads: the least number of tokens, and whether it is closed. -/
structure Extent where
  takes : Nat
  closed : Bool

namespace Extent

/-- Some part of a construct. -/
def part : Extent := ⟨0, false⟩

/-- A part with at least one token. -/
def item : Extent := ⟨1, false⟩

/-- What may follow the last token of a construct. -/
def tail : Extent := ⟨0, true⟩

/-- A construct with a last token. -/
def whole : Extent := ⟨1, true⟩

/-- A construct with a first and a last token. -/
def double : Extent := ⟨2, true⟩

/-- The extent of one reader after another: the last token of the second one, if it takes any,
closes both. -/
def andThen (x y : Extent) : Extent :=
  ⟨x.takes + y.takes, y.closed && (x.closed || 0 < y.takes)⟩

/-- Whoever reads so much may read other things before: what closes it is a token of its own. -/
class Definite (x : Extent) : Prop where
  takes_pos : x.closed = true → 0 < x.takes

instance : Definite part := ⟨nofun⟩

instance : Definite item := ⟨nofun⟩

instance : Definite whole := ⟨fun _ => Nat.one_pos⟩

instance : Definite double := ⟨fun _ => Nat.two_pos⟩

/-- Less is said of how much is read. -/
structure Within (y x : Extent) : Prop where
  takes : y.takes ≤ x.takes
  closed : y.closed = true → x.closed = true

end Extent

/-- What is compared. -/
structure Comparison where
  relocation : Relocation
  /-- The second reader reads what the first one reads, relocated. -/
  reads : ∀ {α : Type} [Relocatable α], Extent → Parse α → Parse α → Prop

namespace Comparison

/-- Relocate as the comparison does. -/
@[simp] abbrev carry {α : Type} [Relocatable α] (C : Comparison) (a : α) : α :=
  move C.relocation a

/-- What is to be shown of a comparison. What is done with a context depends neither on the mode nor
on how deep it is, but for the limits on nesting. -/
structure Lawful (C : Comparison) : Prop where
  merges : C.relocation.Merges
  within_extent : ∀ {α} [Relocatable α] {x y : Extent} {p p' : Parse α},
    C.reads x p p' → y.Within x → C.reads y p p'
  pure : ∀ {α} [Relocatable α] {a a' : α}, a' = C.carry a → C.reads .tail (pure a) (pure a')
  bind : ∀ {α β} [Relocatable α] [Relocatable β] {x y : Extent}
    {p p' : Parse α} {f f' : α → Parse β},
    C.reads x p p' → (∀ a, C.reads y (f a) (f' (C.carry a))) →
    C.reads (x.andThen y) (p >>= f) (p' >>= f')
  context : ∀ {α} [Relocatable α] {x : Extent} {f f' : Context → Parse α},
    (∀ c, C.reads x (f c) (f' c)) →
    (∀ c all depth arrows,
      f' { c with collectAll := all, depth := depth, arrows := arrows } = f' c) →
    C.reads x (Parse.context >>= f) (Parse.context >>= f')
  peek : C.reads .part Parse.peek Parse.peek
  previous : C.reads .tail Parse.previous Parse.previous
  atEnd : C.reads .part Parse.atEnd Parse.atEnd
  check : ∀ kind, C.reads .part (Parse.check kind) (Parse.check kind)
  check_continues : ∀ {kind}, continuesStatement kind = true →
    C.reads .tail (Parse.check kind) (Parse.check kind)
  /-- To look one token ahead is safe where at least that many are taken. -/
  checkNext : ∀ {α} [Relocatable α] {x : Extent} {f f' : Bool → Parse α} (kind : TokenKind),
    x = .item ∨ x = .double → (∀ b, C.reads x (f b) (f' b)) →
    C.reads x (Parse.checkNext kind >>= f) (Parse.checkNext kind >>= f')
  advance : C.reads .item Parse.advance Parse.advance
  consume : ∀ kind expected reason,
    C.reads .whole (Parse.consume kind expected reason) (Parse.consume kind expected reason)
  fail : ∀ {α} [Relocatable α] {x : Extent} (fault : ParseFault),
    C.reads x (Parse.fail fault : Parse α) (Parse.fail (C.carry fault))
  report : ∀ {x : Extent} (e : ParseError),
    C.reads x (Parse.report e) (Parse.report (C.carry e))
  tooDeep : ∀ {α} [Relocatable α] {x : Extent}, C.reads x (Parse.tooDeep : Parse α) Parse.tooDeep
  within : ∀ {α} [Relocatable α] {x : Extent} {p p' : Parse α} {change : Context → Context},
    (∀ c all depth arrows,
      change { c with collectAll := all, depth := depth, arrows := arrows } =
        { change c with collectAll := all, depth := depth, arrows := arrows }) →
    C.reads x p p' → C.reads x (Parse.within change p) (Parse.within change p')
  nested : ∀ {α} [Relocatable α] {x : Extent} {p p' : Parse α},
    C.reads x p p' → C.reads x (Parse.nested p) (Parse.nested p')
  nestedArrow : ∀ {α} [Relocatable α] {x : Extent} {p p' : Parse α},
    C.reads x p p' → C.reads x (Parse.nestedArrow p) (Parse.nestedArrow p')
  repeatWhile : ∀ {σ ρ} [Relocatable σ] [Relocatable ρ]
    {test test' : Parse Bool} {turn turn' : σ → Parse (σ × Bool)} {result result' : σ → ρ} {s : σ},
    C.reads .part test test' →
    (∀ s, C.reads .item (turn s) (turn' (C.carry s))) →
    (∀ s, result' (C.carry s) = C.carry (result s)) →
    C.reads .part (budget >>= fun tokens => Parse.repeatWhile test turn result tokens s)
      (budget >>= fun tokens => Parse.repeatWhile test' turn' result' tokens (C.carry s))
  /-- To look ahead for an arrow is safe before what begins as an arrow function does, or ends
  with a closing parenthesis. -/
  startsArrow : ∀ {α} [Relocatable α] {p p' q q' : Parse α} (expected : String),
    C.reads .item p p' → C.reads .item q q' →
    let group (q : Parse α) : Parse α := do
      let a ← q
      let _ ← require .rightParen expected
      return a
    C.reads .item
      (do if Parse.startsArrow true ((← remaining).drop 1) then p else group q)
      (do if Parse.startsArrow true ((← remaining).drop 1) then p' else group q')
  recovering : ∀ {p p' : Parse Stmt},
    C.reads .whole p p' → C.reads .whole (Parse.recovering p) (Parse.recovering p')

namespace Lawful

variable {C : Comparison} (hC : C.Lawful)
variable {α β : Type} [Relocatable α] [Relocatable β]
variable {x : Extent} {p p' : Parse α} {f f' : α → Parse β}
include hC

section Sequences

theorem part_of (h : C.reads x p p') : C.reads .part p p' :=
  hC.within_extent h ⟨Nat.zero_le _, nofun⟩

theorem done {a a' : α} (h : a' = C.carry a) : C.reads .part (Pure.pure a) (Pure.pure a') :=
  hC.part_of (hC.pure h)

/-- What comes first takes no token that matters; what follows it decides on the extent. -/
theorem before
    [hx : x.Definite]
    (hp : C.reads .part p p')
    (hf : ∀ a, C.reads x (f a) (f' (C.carry a))) :
    C.reads x (p >>= f) (p' >>= f') :=
  hC.within_extent (hC.bind hp hf)
    ⟨by simp [Extent.andThen], fun h => by simp [Extent.andThen, h, hx.takes_pos h]⟩

/-- The first reader takes a token. -/
theorem opening
    (hp : C.reads .item p p')
    (hf : ∀ a, C.reads .part (f a) (f' (C.carry a))) :
    C.reads .item (p >>= f) (p' >>= f') :=
  hC.bind hp hf

/-- The first reader takes the last token. -/
theorem closing
    (hp : C.reads .whole p p')
    (hf : ∀ a, C.reads .tail (f a) (f' (C.carry a))) :
    C.reads .whole (p >>= f) (p' >>= f') :=
  hC.bind hp hf

/-- Neither reader needs to take a token. -/
theorem trailing
    (hp : C.reads .tail p p')
    (hf : ∀ a, C.reads .tail (f a) (f' (C.carry a))) :
    C.reads .tail (p >>= f) (p' >>= f') :=
  hC.bind hp hf

/-- The first reader takes a token, the second one another that is the last. -/
theorem enclosing
    (hp : C.reads .item p p')
    (hf : ∀ a, C.reads .whole (f a) (f' (C.carry a))) :
    C.reads .double (p >>= f) (p' >>= f') :=
  hC.bind hp hf

/-- A repetition and what follows it. -/
theorem bounded
    [x.Definite]
    {loop loop' : List Token → Parse α}
    (hloop : C.reads .part (budget >>= loop) (budget >>= loop'))
    (hf : ∀ a, C.reads x (f a) (f' (C.carry a))) :
    C.reads x (budget >>= fun tokens => loop tokens >>= f)
      (budget >>= fun tokens => loop' tokens >>= f') := by
  rw [← bind_assoc, ← bind_assoc]
  exact hC.before hloop hf

end Sequences

section Primitives

theorem require (kind : TokenKind) (expected : String) :
    C.reads .whole (Parse.require kind expected) (Parse.require kind expected) :=
  hC.consume kind expected none

theorem accept (kind : TokenKind) : C.reads .part (Parse.accept kind) (Parse.accept kind) := by
  refine hC.before (hC.check kind) fun found => ?_
  cases found with
  | true => exact hC.before (hC.part_of hC.advance) fun _ => hC.done rfl
  | false => exact hC.done rfl

theorem spanFrom (start : Token) :
    C.reads .tail (Parse.spanFrom start) (Parse.spanFrom (C.carry start)) :=
  hC.trailing hC.previous fun _ => hC.pure (hC.merges _ _).symm

theorem reportIf (isMisplaced : Bool) (construct : Misplaced) (token : Token) :
    C.reads .tail (Parse.reportIf isMisplaced construct token)
      (Parse.reportIf isMisplaced construct (C.carry token)) := by
  cases isMisplaced with
  | true => exact hC.report ⟨.misplaced construct, token⟩
  | false => exact hC.pure rfl

end Primitives

section Repetition

variable {item item' : Parse α}

theorem manyUntil
    {stop stop' : Parse Bool}
    (hstop : C.reads .part stop stop')
    (hitem : C.reads .item item item') :
    C.reads .part (budget >>= fun tokens => Parse.manyUntil stop item tokens [])
      (budget >>= fun tokens => Parse.manyUntil stop' item' tokens []) := by
  simp only [manyUntil_eq]
  refine hC.repeatWhile (s := []) (hC.before hstop fun _ => hC.done rfl) (fun done => ?_)
    fun done => ?_
  · exact hC.opening hitem fun _ => hC.done rfl
  · exact List.map_reverse.symm

theorem commaTurn (hitem : C.reads .item item item') (done : List α) :
    C.reads .item (Parse.commaTurn item done) (Parse.commaTurn item' (C.carry done)) :=
  hC.opening hitem fun _ => hC.before (hC.accept .comma) fun _ => hC.done rfl

theorem listBefore (close : TokenKind) (hitem : C.reads .item item item') :
    C.reads .part (budget >>= fun tokens => Parse.listBefore close item tokens [])
      (budget >>= fun tokens => Parse.listBefore close item' tokens []) := by
  simp only [listBefore_eq]
  refine hC.repeatWhile (s := []) (hC.before (hC.check close) fun _ => hC.done rfl)
    (fun done => hC.commaTurn hitem done) fun done => ?_
  exact List.map_reverse.symm

theorem countedList (what : Counted) (hitem : C.reads .item item item') :
    C.reads .part (budget >>= fun tokens => Parse.countedList what item tokens [])
      (budget >>= fun tokens => Parse.countedList what item' tokens []) := by
  simp only [countedList_eq]
  refine hC.repeatWhile (s := []) (hC.done rfl) (fun done => ?_) fun done => ?_
  · have hturn := hC.commaTurn hitem done
    have hlength : (C.carry done).length = done.length := List.length_map ..
    unfold Parse.countedTurn
    rw [hlength]
    split
    · exact hC.before hC.peek fun token =>
        hC.before (hC.report ⟨.tooMany what, token⟩) fun _ => hturn
    · exact hturn
  · exact List.map_reverse.symm

theorem parenthesised (what : Counted) (hitem : C.reads .item item item') :
    C.reads .part (Parse.parenthesised what item) (Parse.parenthesised what item') := by
  refine hC.before (hC.check .rightParen) fun closed => ?_
  cases closed with
  | true => exact hC.done rfl
  | false => exact hC.countedList what hitem

theorem parameters : C.reads .part Parse.parameters Parse.parameters :=
  hC.parenthesised .parameters (hC.within_extent
    (hC.closing (hC.require .identifier _) fun _ => hC.pure rfl) ⟨by decide, by decide⟩)

end Repetition

end Lawful

end Comparison

end Parse

end Lox
