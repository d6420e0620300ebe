import Lox.Proofs.Printing.Giving
import Lox.Proofs.Surface.Grammar

/-!
# Through the levels of precedence

What a reader of one level gives, the reader of every looser level gives as well, unless it finds an
operator of its own, or one of a level between them, behind it. So it is enough to know at which
level an expression is put together and which token follows.
-/

namespace Lox

open Parse

namespace Surface.Level

/-- The reader of the expressions of a level. -/
def reader (g : Grammar) : Level → Parse Expr
  | assignment => Parse.assignment g
  | ternary => Parse.ternary g
  | disjunction => Parse.logicalOr g
  | conjunction => Parse.logicalAnd g
  | equality => Parse.equality g
  | comparison => Parse.comparison g
  | term => Parse.term g
  | factor => Parse.factor g
  | unary => Parse.unary g
  | power => Parse.power g
  | call => Parse.call g
  | primary => Parse.primary g

/-- Does the reader of the level go on with a token of this kind behind a tighter expression? -/
def continuedBy : Level → TokenKind → Bool
  | assignment, kind => kind == .assign
  | ternary, kind => kind == .question
  | power, kind => kind == .power
  | call, kind => startsSuffix kind
  | unary, _ | primary, _ => false
  | disjunction, kind => (operators disjunction).lookup kind |>.isSome
  | conjunction, kind => (operators conjunction).lookup kind |>.isSome
  | equality, kind => (operators equality).lookup kind |>.isSome
  | comparison, kind => (operators comparison).lookup kind |>.isSome
  | term, kind => (operators term).lookup kind |>.isSome
  | factor, kind => (operators factor).lookup kind |>.isSome

/-- The number of levels that are tighter. -/
def rank : Level → Nat
  | primary => 0
  | call => 1
  | power => 2
  | unary => 3
  | factor => 4
  | term => 5
  | comparison => 6
  | equality => 7
  | conjunction => 8
  | disjunction => 9
  | ternary => 10
  | assignment => 11

/-- Every level. -/
def all : List Level :=
  [primary, call, power, unary, factor, term, comparison, equality, conjunction, disjunction,
    ternary, assignment]

theorem mem_all (level : Level) : level ∈ all := by
  cases level <;> decide

/-- Does an expression of the level end before a token of this kind? -/
def endsBefore (level : Level) (kind : TokenKind) : Bool :=
  all.all fun l => decide (level.rank < l.rank) || !l.continuedBy kind

theorem not_continuedBy {level l : Level} {kind : TokenKind} (h : level.endsBefore kind = true)
    (hl : l.rank ≤ level.rank) :
    l.continuedBy kind = false := by
  have hall := List.all_eq_true.mp h l (mem_all l)
  simp only [Bool.or_eq_true, decide_eq_true_eq, Bool.not_eq_true'] at hall
  exact hall.resolve_left (Nat.not_lt_of_le hl)

theorem rank_injective {level level' : Level} (h : level.rank = level'.rank) : level = level' := by
  cases level <;> cases level' <;> first | rfl | cases h

theorem exists_tighter (level : Level) (h : 0 < level.rank) :
    ∃ tighter, level.tighter? = some tighter ∧ level.rank = tighter.rank + 1 := by
  cases level <;> first | exact absurd h (Nat.lt_irrefl 0) | exact ⟨_, rfl, rfl⟩

/-- A level with operators reads operands of the next one. -/
theorem reader_joined (g : Grammar) {level tighter : Level} (hlevel : level.tighter? = some tighter)
    (hoperators : level.operators ≠ []) :
    ∃ join?, (∀ kind, join? kind = level.operators.lookup kind) ∧
      level.reader g = leftAssociative (tighter.reader g) join? := by
  cases level <;> cases hlevel <;> first
    | exact absurd rfl hoperators
    | exact ⟨_, fun kind => by cases kind <;> rfl, rfl⟩

end Surface.Level

namespace Parse.Gives

open Surface

variable {c : Context} {w later : List Token} {next : Token} {g : Grammar} {Q : Expr → Prop}

/-- Nothing more belongs to a call. -/
theorem suffixes_done {e : Expr} (hnext : startsSuffix next.kind = false) (he : Q e)
    (tokens : List Token) :
    Gives c [] (next :: later) (suffixes g tokens e) Q := by
  cases tokens with
  | nil => exact pure he
  | cons _ tokens =>
      refine peek rfl ?_
      split
      · next hkind => simp [hkind, startsSuffix] at hnext
      · next hkind => simp [hkind, startsSuffix] at hnext
      · next hkind => simp [hkind, startsSuffix] at hnext
      · exact pure he

/-- No more operands follow. -/
theorem chain_done
    {operand : Parse Expr}
    {join? : TokenKind → Option Join}
    {e : Expr}
    (hnext : join? next.kind = none)
    (he : Q e)
    (tokens : List Token) :
    Gives c [] (next :: later) (chain operand join? tokens e) Q := by
  cases tokens with
  | nil => exact pure he
  | cons _ tokens =>
      refine peek rfl ?_
      rw [hnext]
      exact pure he

/-- From one level to the next. -/
theorem climb_step
    {level tighter : Level}
    (hlevel : level.tighter? = some tighter)
    (hsign : level = .unary → ∃ first v, w = first :: v ∧ unaryOp? first.kind = none)
    (hnext : level.continuedBy next.kind = false)
    (h : Gives c w (next :: later) (tighter.reader g) Q) :
    Gives c w (next :: later) (level.reader g) Q := by
  by_cases hoperators : level.operators = []
  case neg =>
    obtain ⟨join?, hjoin, hreader⟩ := level.reader_joined g hlevel hoperators
    have hnone : join? next.kind = none := by
      rw [hjoin]
      cases level <;> first
        | exact absurd rfl hoperators
        | exact Option.not_isSome_iff_eq_none.mp (Bool.eq_false_iff.mp hnext)
    rw [hreader]
    exact bind_last h fun e he => budget fun tokens _ => chain_done hnone he tokens
  case pos =>
    cases level with
    | assignment =>
        cases hlevel
        refine bind_last h fun e he => check rfl ?_
        rw [show (next.kind == .assign) = false from hnext]
        exact pure he
    | ternary =>
        cases hlevel
        refine bind_last h fun e he => bind_last (accept_other ?_) ?_
        · simpa [Level.continuedBy] using hnext
        · rintro _ rfl
          exact pure he
    | unary =>
        cases hlevel
        obtain ⟨first, v, rfl, hfirst⟩ := hsign rfl
        refine peek rfl ?_
        rw [hfirst]
        exact h
    | power =>
        cases hlevel
        refine bind_last h fun e he => bind_last (accept_other ?_) ?_
        · simpa [Level.continuedBy] using hnext
        · rintro _ rfl
          exact pure he
    | call =>
        cases hlevel
        exact bind_last h fun e he => budget fun tokens _ => suffixes_done hnext he tokens
    | primary => cases hlevel
    | _ => exact absurd hoperators (by simp [Level.operators])

/-- From one level to a looser one. An expression that is tighter than a sign does not begin with
one. -/
theorem climb
    (level level' : Level)
    (hrank : level.rank ≤ level'.rank)
    (hsign : level.rank < Level.unary.rank →
      ∃ first v, w = first :: v ∧ unaryOp? first.kind = none)
    (hnext : level'.endsBefore next.kind = true)
    (h : Gives c w (next :: later) (level.reader g) Q) :
    Gives c w (next :: later) (level'.reader g) Q := by
  suffices hall : ∀ n, level.rank ≤ n → n ≤ level'.rank → ∀ l : Level, l.rank = n →
      Gives c w (next :: later) (l.reader g) Q from hall _ hrank (Nat.le_refl _) level' rfl
  intro n hn
  induction hn with
  | refl => exact fun _ l hl => Level.rank_injective hl ▸ h
  | @step n hn ih =>
      intro hle l hl
      obtain ⟨tighter, htighter, htrank⟩ := l.exists_tighter (by omega)
      have hbelow := ih (by omega) tighter (by omega)
      refine climb_step htighter (fun hunary => hsign ?_)
        (Level.not_continuedBy hnext (by omega)) hbelow
      rw [← hunary, hl]
      exact Nat.lt_succ_of_le hn

end Parse.Gives

end Lox
