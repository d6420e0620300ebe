import Lox.Proofs.Printing.Levels
import Lox.Proofs.Printing.Printer

/-!
# Printed expressions are read back

Between parentheses an expression is read back at the loosest level (`Expr.Readable`), and so it is
with its parentheses at every level, wherever no `=>` follows. Each lemma here takes this from the
parts of an expression to the whole of it. A part is at most two levels of nesting further in.
-/

namespace Lox

open Parse Relocation Surface

/-- The two are the same except for their places. -/
def Alike {α : Type} [Relocatable α] (a b : α) : Prop :=
  move erasure b = move erasure a

/-- So many more levels of nesting can be read in the context with the grammar of this depth. -/
structure Room (c : Context) (depth levels : Nat) : Prop where
  depth_le : levels ≤ depth
  nesting_le : c.depth + levels ≤ maxNesting

theorem Room.mono
    {c : Context}
    {depth levels fewer : Nat}
    (h : Room c depth levels)
    (hfewer : fewer ≤ levels) :
    Room c depth fewer :=
  ⟨Nat.le_trans hfewer h.depth_le, Nat.le_trans (Nat.add_le_add_left hfewer _) h.nesting_le⟩

/-- One level further in there is room for one level less. -/
theorem Room.enter
    {c : Context}
    {depth levels : Nat}
    (h : Room c depth (levels + 1)) :
    c.depth < maxNesting ∧
      ∃ inner, depth = inner + 1 ∧ Room { c with depth := c.depth + 1 } inner levels := by
  obtain ⟨hdepth, hnesting⟩ := h
  obtain ⟨inner, rfl⟩ := Nat.exists_eq_add_one_of_ne_zero (n := depth) (by omega)
  exact ⟨by omega, inner, rfl, by omega, by simp only; omega⟩

/-- Before a closing parenthesis the expression is read back from what is printed inside of its
own. -/
structure Expr.Readable (e : Expr) : Prop where
  printable : e.isPrintable = true
  reads : ∀ {c : Context} {depth : Nat} {w later : List Token} {closing : Token},
    Room c depth (2 * e.height) → Spelled w e.inside → closing.kind = .rightParen →
      Gives c w (closing :: later) (Parse.assignment (.ofDepth depth)) (Alike e)

section Beginnings

/-- What stands inside of the parentheses is one name, an assignment to a name, one value, or it
begins with a sign or a bracket. -/
theorem Expr.inside_cases {e : Expr} (he : e.isPrintable = true) :
    (∃ name, e.inside = [.name name]) ∨
      (∃ name rest, e.inside = .name name :: .plain .assign :: rest) ∨
      (∃ literal, e.inside = [.value literal]) ∨
      ∃ kind rest, e.inside = .plain kind :: rest ∧ kind ≠ .rightParen ∧ kind ≠ .identifier := by
  cases e with
  | literal value span => exact .inr (.inr (.inl ⟨value, rfl⟩))
  | reference name span => exact .inl ⟨name, rfl⟩
  | assign name value span => exact .inr (.inl ⟨name, _, rfl⟩)
  | unary op operand span => exact .inr (.inr (.inr ⟨op.kind, _, rfl, by cases op <;> decide⟩))
  | this span => cases he
  | super method span => cases he
  | function params body span => cases he
  | _ => exact .inr (.inr (.inr ⟨_, _, rfl, by decide⟩))

theorem kind_of_literal? {token : Token} {literal : Literal} (h : literal? token = some literal) :
    token.kind ≠ .rightParen ∧ token.kind ≠ .identifier := by
  unfold literal? at h
  split at h <;> simp_all

/-- No printed expression looks like the parameters of an arrow function. -/
theorem startsArrow_inside
    {e : Expr}
    (he : e.isPrintable = true)
    {w later : List Token}
    {closing next : Token}
    (hw : Spelled w e.inside)
    (hclosing : closing.kind = .rightParen)
    (hnext : next.kind ≠ .arrow) :
    startsArrow true (w ++ closing :: next :: later) = false := by
  obtain ⟨name, h⟩ | ⟨name, rest, h⟩ | ⟨literal, h⟩ | ⟨kind, rest, h, hright, hname⟩ :=
    Expr.inside_cases he
  · rw [h, spelled_singleton] at hw
    obtain ⟨token, rfl, hkind, -⟩ := hw
    simp [startsArrow, hkind, hclosing, hnext]
  · rw [h] at hw
    obtain ⟨token, _, ⟨hkind, -⟩, hrest, rfl⟩ := List.forall₂_cons_right_iff.mp hw
    obtain ⟨equals, _, hequals, -, rfl⟩ := List.forall₂_cons_right_iff.mp hrest
    have hequals : equals.kind = .assign := hequals
    simp [startsArrow, hkind, hequals]
  · rw [h, spelled_singleton] at hw
    obtain ⟨token, rfl, htoken⟩ := hw
    obtain ⟨hright, hname⟩ := kind_of_literal? htoken
    simp [startsArrow, hright, hname]
  · rw [h] at hw
    obtain ⟨token, _, htoken, -, rfl⟩ := List.forall₂_cons_right_iff.mp hw
    have hkind : token.kind = kind := htoken
    simp [startsArrow, hkind, hright, hname]

end Beginnings

namespace Expr.Readable

variable {e : Expr} {c : Context} {depth : Nat} {w later : List Token} {next : Token}

/-- In its parentheses the expression is read back as a primary one. -/
theorem primary
    (h : e.Readable)
    (hroom : Room c depth (2 * e.height + 1))
    (hw : Spelled w e.printed)
    (hnext : next.kind ≠ .arrow) :
    Gives c w (next :: later) (Parse.primary (.ofDepth depth)) (Alike e) := by
  obtain ⟨opening, v, closing, rfl, hopening, hv, hclosing⟩ := spelled_enclose.mp hw
  obtain ⟨hdeep, depth, rfl, hinner⟩ := hroom.enter
  have hgroup : startsArrow true (([opening] ++ v ++ [closing] ++ next :: later).drop 1) = false := by
    simpa using startsArrow_inside h.printable hv hclosing hnext
  have hread : Gives c v (closing :: next :: later) (Grammar.ofDepth (depth + 1)).expression
      (Alike e) :=
    .nested hdeep (h.reads hinner hv hclosing)
  refine .peek rfl ?_
  rw [hopening]
  refine .remaining ?_
  rw [hgroup, List.append_assoc]
  refine Gives.bind .advance fun _ _ => Gives.bind hread fun e' he' => ?_
  exact .bind_last (.require hclosing) fun _ _ => .pure he'

/-- In its parentheses the expression is read back at every level, if no operator of this level or a
tighter one follows. -/
theorem operand
    (h : e.Readable)
    (hroom : Room c depth (2 * e.height + 1))
    (level : Level)
    (hw : Spelled w e.printed)
    (hnext : next.kind ≠ .arrow)
    (hends : level.endsBefore next.kind = true) :
    Gives c w (next :: later) (level.reader (.ofDepth depth)) (Alike e) := by
  refine .climb .primary level (Nat.zero_le _) (fun _ => ?_) hends
    (h.primary hroom hw hnext)
  obtain ⟨opening, v, closing, rfl, hopening, -⟩ := spelled_enclose.mp hw
  exact ⟨opening, v ++ [closing], rfl, by rw [hopening]; rfl⟩

/-- The same one level of nesting further in. -/
theorem nested
    (h : e.Readable)
    (hroom : Room c depth (2 * e.height + 2))
    (level : Level)
    (read : Grammar → Parse Expr)
    (hread : ∀ depth, read (.ofDepth (depth + 1)) = level.reader (.ofDepth depth))
    (hw : Spelled w e.printed)
    (hnext : next.kind ≠ .arrow)
    (hends : level.endsBefore next.kind = true) :
    Gives c w (next :: later) (Parse.nested (read (.ofDepth depth))) (Alike e) := by
  obtain ⟨hdeep, depth, rfl, hinner⟩ := hroom.enter
  rw [hread]
  exact .nested hdeep (h.operand hinner level hw hnext hends)

end Expr.Readable

section Leaves

variable {c : Context} {rest : List Token} {token : Token} {g : Grammar}

theorem primary_literal {value : Literal} (h : literal? token = some value) (span : Span) :
    Gives c [token] rest (Parse.primary g) (Alike (Expr.literal value span)) := by
  refine .peek rfl ?_
  unfold literal? at h
  split at h
  case h_1 hkind =>
    cases h
    rw [hkind]
    exact .bind_last .advance fun _ _ => .pure rfl
  case h_2 hkind =>
    cases h
    rw [hkind]
    exact .bind_last .advance fun _ _ => .pure rfl
  case h_3 hkind =>
    cases h
    rw [hkind]
    exact .bind_last .advance fun _ _ => .pure rfl
  case h_4 hkind =>
    rw [hkind, h]
    exact .bind_last .advance fun _ _ => .pure rfl
  case h_5 hkind =>
    rw [hkind, h]
    exact .bind_last .advance fun _ _ => .pure rfl
  case h_6 => cases h

theorem primary_reference (h : token.kind = .identifier) (span : Span) :
    Gives c [token] rest (Parse.primary g) (Alike (Expr.reference token.lexeme span)) := by
  refine .peek rfl ?_
  rw [h]
  exact .bind_last .advance fun _ _ => .pure rfl

end Leaves

namespace Expr.Readable

/-- What is read back at some level is read back at the loosest one before a closing parenthesis. -/
theorem of_level
    {c : Context}
    {w later : List Token}
    {closing : Token}
    {g : Grammar}
    {Q : Expr → Prop}
    (level : Level)
    (hsign : level.rank < Level.unary.rank →
      ∃ first v, w = first :: v ∧ unaryOp? first.kind = none)
    (hclosing : closing.kind = .rightParen)
    (h : Gives c w (closing :: later) (level.reader g) Q) :
    Gives c w (closing :: later) (Parse.assignment g) Q :=
  .climb level .assignment (by cases level <;> decide) hsign (by rw [hclosing]; rfl) h

theorem literal (value : Literal) (span : Span) : (Expr.literal value span).Readable := by
  refine ⟨rfl, fun {c depth w later closing} _ hw hclosing => ?_⟩
  obtain ⟨token, rfl, htoken⟩ := spelled_singleton.mp hw
  refine of_level .primary (fun _ => ⟨token, [], rfl, ?_⟩) hclosing (primary_literal htoken span)
  change literal? token = some value at htoken
  unfold literal? at htoken
  split at htoken
  case h_6 => cases htoken
  all_goals
    next hkind => rw [hkind]; rfl

theorem reference (name : String) (span : Span) : (Expr.reference name span).Readable := by
  refine ⟨rfl, fun {c depth w later closing} _ hw hclosing => ?_⟩
  obtain ⟨token, rfl, hkind, rfl⟩ := spelled_singleton.mp hw
  exact of_level .primary (fun _ => ⟨token, [], rfl, by rw [hkind]; rfl⟩) hclosing
    (primary_reference hkind span)

end Expr.Readable

end Lox
