import Lox.Proofs.Printing.Expression
import Lox.Proofs.Printing.Lists

/-!
# Printed operations are read back

Signs, operators between operands, conditions and assignments. An operator ends the operand on its
left, since no operator that binds tighter is spelled like it. Then calls, properties and elements:
what follows an expression in parentheses, whether it ends there or a value is assigned to it. Then
the literals that have parts.
-/

namespace Lox

open Parse Relocation Surface

/-- The level at which an operator joins its operands. -/
def BinaryOp.level : BinaryOp → Level
  | add | subtract => .term
  | multiply | divide | remainder => .factor
  | power => .power
  | equal | notEqual => .equality
  | greater | greaterEqual | less | lessEqual => .comparison

/-- The level at which an operator joins its operands. -/
def LogicalOp.level : LogicalOp → Level
  | and => .conjunction
  | or => .disjunction

section Alike

@[simp] theorem erasure_span (s : Span) : erasure.span s = nowhere :=
  rfl

theorem alike_iff {e e' : Expr} : Alike e e' ↔ e'.relocate erasure = e.relocate erasure :=
  Iff.rfl

theorem alike_reference {name : String} {span : Span} {e : Expr}
    (h : Alike (Expr.reference name span) e) :
    ∃ span', e = .reference name span' := by
  cases e <;> cases h
  exact ⟨_, rfl⟩

end Alike

namespace Expr.Readable

variable {left right condition thenBranch elseBranch operand value : Expr}

/-- Two operands with an operator of a level between them. -/
theorem joined
    (hl : left.Readable)
    (hr : right.Readable)
    {level tighter : Level}
    {join : Join}
    {op closing : Token}
    {c : Context}
    {depth : Nat}
    {u v later : List Token}
    (hlevel : level.tighter? = some tighter)
    (hjoin : level.operators.lookup op.kind = some join)
    (hop : tighter.endsBefore op.kind = true ∧ op.kind ≠ .arrow)
    (hroom : Room c depth (2 * (max left.height right.height + 1)))
    (hu : Spelled u left.printed)
    (hv : Spelled v right.printed)
    (hclosing : closing.kind = .rightParen) :
    Gives c (u ++ [op] ++ v) (closing :: later) (level.reader (.ofDepth depth))
      fun e => ∃ left' right' span, e = join left' right' span ∧ Alike left left' ∧
        Alike right right' := by
  have hoperators : level.operators ≠ [] := fun hnil => by rw [hnil] at hjoin; cases hjoin
  obtain ⟨join?, hlookup, hreader⟩ := level.reader_joined (.ofDepth depth) hlevel hoperators
  have hnone : join? closing.kind = none := by
    rw [hlookup, hclosing]
    cases level <;> rfl
  rw [hreader, List.append_assoc]
  refine .bind (hl.operand (hroom.mono (by omega)) tighter hu hop.2 hop.1)
    fun left' hleft => .budget fun tokens htokens => ?_
  cases tokens with
  | nil => exact absurd htokens (Nat.not_lt_zero _)
  | cons _ tokens =>
      refine .peek rfl ?_
      rw [hlookup, hjoin]
      refine .bind .advance fun _ _ => ?_
      have hends : tighter.endsBefore closing.kind = true := by
        rw [hclosing]
        cases tighter <;> decide
      refine .bind_last (hr.operand (hroom.mono (by omega)) tighter hv
        (by rw [hclosing]; decide) hends) fun right' hright => ?_
      exact .chain_done hnone ⟨left', right', _, rfl, hleft, hright⟩ tokens

theorem binary (hl : left.Readable) (hr : right.Readable) (op : BinaryOp) (span : Span) :
    (Expr.binary left op right span).Readable := by
  refine ⟨by simp [hl.printable, hr.printable],
    fun {c depth w later closing} hroom hw hclosing => ?_⟩
  simp only [Expr.inside, spelled_append, spelled_singleton] at hw
  obtain ⟨_, v, rfl, ⟨u, _, rfl, hu, token, rfl, htoken⟩, hv⟩ := hw
  have htoken : token.kind = op.kind := htoken
  have hsign : ∃ first w, u ++ [token] ++ v = first :: w ∧ unaryOp? first.kind = none := by
    obtain ⟨opening, u, _, rfl, hopening, -⟩ := spelled_enclose.mp hu
    exact ⟨opening, _, rfl, by rw [hopening]; rfl⟩
  by_cases hpower : op = .power
  · subst hpower
    refine of_level .power (fun _ => hsign) hclosing ?_
    rw [List.append_assoc]
    refine .bind (hl.operand (hroom.mono (by simp only [Expr.height]; omega)) .call hu
      (by rw [htoken]; decide) (by rw [htoken]; decide)) fun left' hleft => ?_
    refine .bind (.accept htoken) ?_
    rintro _ rfl
    refine .bind_last (hr.nested (hroom.mono (by simp only [Expr.height]; omega)) .unary
      Grammar.unary (fun _ => rfl) hv (by rw [hclosing]; decide) (by rw [hclosing]; decide))
      fun right' hright => .pure ?_
    rw [alike_iff] at *
    simp [hleft, hright]
  · obtain ⟨tighter, htighter, hjoin, hends⟩ : ∃ tighter, op.level.tighter? = some tighter ∧
        op.level.operators.lookup op.kind = some (joinBinary op) ∧
        tighter.endsBefore op.kind = true ∧ op.kind ≠ .arrow := by
      cases op <;> first
        | exact absurd rfl hpower
        | exact ⟨_, rfl, rfl, by decide, by decide⟩
    refine of_level op.level (fun _ => hsign) hclosing ?_
    refine (joined hl hr htighter (htoken ▸ hjoin) (htoken ▸ hends) hroom hu hv
      hclosing).mono ?_
    rintro _ ⟨left', right', span', rfl, hleft, hright⟩
    rw [alike_iff] at *
    simp [joinBinary, hleft, hright]

theorem logical (hl : left.Readable) (hr : right.Readable) (op : LogicalOp) (span : Span) :
    (Expr.logical left op right span).Readable := by
  refine ⟨by simp [hl.printable, hr.printable],
    fun {c depth w later closing} hroom hw hclosing => ?_⟩
  simp only [Expr.inside, spelled_append, spelled_singleton] at hw
  obtain ⟨_, v, rfl, ⟨u, _, rfl, hu, token, rfl, htoken⟩, hv⟩ := hw
  have htoken : token.kind = op.kind := htoken
  obtain ⟨tighter, htighter, hjoin, hends⟩ : ∃ tighter, op.level.tighter? = some tighter ∧
      op.level.operators.lookup op.kind = some (joinLogical op) ∧
      tighter.endsBefore op.kind = true ∧ op.kind ≠ .arrow := by
    cases op <;> exact ⟨_, rfl, rfl, by decide, by decide⟩
  refine of_level op.level (fun hlt => absurd hlt (by cases op <;> decide)) hclosing ?_
  refine (joined hl hr htighter (htoken ▸ hjoin) (htoken ▸ hends) hroom hu hv
    hclosing).mono ?_
  rintro _ ⟨left', right', span', rfl, hleft, hright⟩
  rw [alike_iff] at *
  simp [joinLogical, hleft, hright]

theorem unary (ho : operand.Readable) (op : UnaryOp)
    (span : Span) :
    (Expr.unary op operand span).Readable := by
  refine ⟨ho.printable,
    fun {c depth w later closing} hroom hw hclosing => ?_⟩
  simp only [Expr.inside, spelled_append, spelled_singleton] at hw
  obtain ⟨_, v, rfl, ⟨token, rfl, htoken⟩, hv⟩ := hw
  have htoken : token.kind = op.kind := htoken
  refine of_level .unary (fun hlt => absurd hlt (Nat.lt_irrefl _)) hclosing ?_
  refine .peek rfl ?_
  rw [show unaryOp? token.kind = some op by rw [htoken]; cases op <;> rfl]
  refine .bind .advance fun _ _ => ?_
  refine .bind_last (ho.nested (hroom.mono (by simp only [Expr.height]; omega)) .unary
    Grammar.unary (fun _ => rfl) hv (by rw [hclosing]; decide) (by rw [hclosing]; decide))
    fun operand' hoperand => .pure ?_
  rw [alike_iff] at *
  simp [hoperand]

theorem conditional
    (hc : condition.Readable)
    (ht : thenBranch.Readable)
    (he : elseBranch.Readable)
    (span : Span) :
    (Expr.conditional condition thenBranch elseBranch span).Readable := by
  refine ⟨by simp [hc.printable, ht.printable, he.printable],
    fun {c depth w later closing} hroom hw hclosing => ?_⟩
  simp only [Expr.inside, spelled_append, spelled_singleton] at hw
  obtain ⟨_, ws, rfl, ⟨_, _, rfl, ⟨_, vs, rfl, ⟨us, _, rfl, hus, question, rfl, hquestion⟩, hvs⟩,
    colon, rfl, hcolon⟩, hws⟩ := hw
  have hquestion : question.kind = .question := hquestion
  have hcolon : colon.kind = .colon := hcolon
  refine of_level .ternary (fun hlt => absurd hlt (by decide)) hclosing ?_
  simp only [List.append_assoc]
  refine .bind (hc.operand (hroom.mono (by simp only [Expr.height]; omega)) .disjunction hus
    (by rw [hquestion]; decide) (by rw [hquestion]; decide)) fun condition' hcondition => ?_
  refine .bind (.accept hquestion) ?_
  rintro _ rfl
  refine .bind (ht.nested (hroom.mono (by simp only [Expr.height]; omega)) .assignment
    Grammar.assignment (fun _ => rfl) hvs (by rw [hcolon]; decide) (by rw [hcolon]; decide))
    fun then' hthen => ?_
  refine .bind (.require hcolon) fun _ _ => ?_
  refine .bind_last (he.nested (hroom.mono (by simp only [Expr.height]; omega)) .ternary
    Grammar.ternary (fun _ => rfl) hws (by rw [hclosing]; decide) (by rw [hclosing]; decide))
    fun else' helse => .pure ?_
  rw [alike_iff] at *
  simp [hcondition, hthen, helse]

/-- A value is assigned to what was read before the equals sign. -/
theorem assigned
    {target e : Expr}
    {c : Context}
    {depth : Nat}
    {us vs later : List Token}
    {equals closing : Token}
    (hv : value.Readable)
    (hroom : Room c depth (2 * value.height + 2))
    (htarget : Gives c us (equals :: (vs ++ closing :: later)) (Parse.ternary (.ofDepth depth))
      (Alike target))
    (hassigned : ∀ target' value' span, Alike target target' → Alike value value' →
      ∃ e', assignmentTo? target' value' span = some e' ∧ Alike e e')
    (hequals : equals.kind = .assign)
    (hvs : Spelled vs value.printed)
    (hclosing : closing.kind = .rightParen) :
    Gives c (us ++ [equals] ++ vs) (closing :: later) (Parse.assignment (.ofDepth depth))
      (Alike e) := by
  rw [List.append_assoc]
  refine .bind htarget fun target' htarget => .check rfl ?_
  rw [hequals]
  refine .bind .advance fun _ _ => ?_
  refine .bind_last (hv.nested hroom .assignment Grammar.assignment (fun _ => rfl) hvs
    (by rw [hclosing]; decide) (by rw [hclosing]; decide)) fun value' hvalue => ?_
  obtain ⟨e', he', halike⟩ := hassigned target' value' _ htarget hvalue
  rw [he']
  exact .pure halike

theorem assign (hv : value.Readable) (name : String)
    (span : Span) :
    (Expr.assign name value span).Readable := by
  refine ⟨hv.printable,
    fun {c depth w later closing} hroom hw hclosing => ?_⟩
  simp only [Expr.inside] at hw
  obtain ⟨_, vs, rfl, htarget, hvs⟩ := spelled_append.mp hw
  obtain ⟨token, _, ⟨hkind, rfl⟩, hrest, rfl⟩ := List.forall₂_cons_right_iff.mp htarget
  obtain ⟨equals, rfl, hequals⟩ := spelled_singleton.mp hrest
  have hequals : equals.kind = .assign := hequals
  have hname : Gives c [token] (equals :: (vs ++ closing :: later)) (Parse.ternary (.ofDepth depth))
      (Alike (Expr.reference token.lexeme nowhere)) :=
    .climb .primary .ternary (by decide) (fun _ => ⟨token, [], rfl, by rw [hkind]; rfl⟩)
      (by rw [hequals]; decide) (primary_reference hkind nowhere)
  refine assigned hv (hroom.mono (by simp only [Expr.height]; omega)) hname ?_ hequals hvs
    hclosing
  intro target' value' span' htarget hvalue
  obtain ⟨span'', rfl⟩ := alike_reference htarget
  refine ⟨_, rfl, ?_⟩
  rw [alike_iff] at *
  simp [hvalue]

end Expr.Readable

section Alike

theorem alike_get {object e : Expr} {name : String} {span : Span}
    (h : Alike (Expr.get object name span) e) :
    ∃ object' span', e = .get object' name span' ∧ Alike object object' := by
  cases e <;> simp only [alike_iff, Expr.relocate, reduceCtorEq, Expr.get.injEq] at h
  obtain ⟨hobject, rfl, -⟩ := h
  exact ⟨_, _, rfl, hobject⟩

theorem alike_index {object subscript e : Expr} {span : Span}
    (h : Alike (Expr.index object subscript span) e) :
    ∃ object' subscript' span', e = .index object' subscript' span' ∧ Alike object object' ∧
      Alike subscript subscript' := by
  cases e <;> simp only [alike_iff, Expr.relocate, reduceCtorEq, Expr.index.injEq] at h
  obtain ⟨hobject, hsubscript, -⟩ := h
  exact ⟨_, _, _, rfl, hobject, hsubscript⟩

end Alike

section Forms

variable {c : Context} {depth : Nat} {us vs rest later : List Token} {closing next : Token}
variable {object subscript callee value : Expr} {arguments elements : List Expr}
variable {entries : List MapEntry} {g : Grammar} {Q R : Expr → Prop}

/-- A suffix follows a primary expression. -/
theorem call_of_suffix
    (hobject : Gives c us (vs ++ rest) (Parse.primary g) R)
    (hsuffix : ∀ object token left, R object →
      Gives c vs rest (suffixes g (token :: left) object) Q) :
    Gives c (us ++ vs) rest (Parse.call g) Q := by
  refine .bind hobject fun object hR => .budget fun tokens htokens => ?_
  cases tokens with
  | nil => exact absurd htokens (Nat.not_lt_zero _)
  | cons token left => exact hsuffix object token left hR

theorem get_gives
    (ho : object.Readable)
    {dot token : Token}
    (hroom : Room c depth (2 * object.height + 1))
    (hus : Spelled us object.printed)
    (hdot : dot.kind = .dot)
    (htoken : token.kind = .identifier)
    (hnext : startsSuffix next.kind = false)
    (span : Span) :
    Gives c (us ++ [dot, token]) (next :: later) (Parse.call (.ofDepth depth))
      (Alike (Expr.get object token.lexeme span)) := by
  refine call_of_suffix (ho.primary hroom hus (by rw [hdot]; decide)) fun object' _ left hobject => ?_
  refine .peek rfl ?_
  rw [hdot]
  refine Gives.bind (u := [dot]) (v := [token]) .advance fun _ _ => .bind_last (.require htoken) ?_
  rintro _ rfl
  refine .suffixes_done hnext ?_ left
  rw [alike_iff] at *
  simp [hobject]

theorem index_gives
    (ho : object.Readable)
    (hi : subscript.Readable)
    {opening : Token}
    (hroom : Room c depth (2 * (max object.height subscript.height + 1)))
    (hus : Spelled us object.printed)
    (hopening : opening.kind = .leftBracket)
    (hvs : Spelled vs subscript.printed)
    (hclosing : closing.kind = .rightBracket)
    (hnext : startsSuffix next.kind = false)
    (span : Span) :
    Gives c (us ++ ([opening] ++ (vs ++ [closing]))) (next :: later) (Parse.call (.ofDepth depth))
      (Alike (Expr.index object subscript span)) := by
  refine call_of_suffix (ho.primary (hroom.mono (by omega)) hus (by rw [hopening]; decide))
    fun object' _ left hobject => ?_
  refine .peek rfl ?_
  rw [hopening]
  refine .bind .advance fun _ _ => ?_
  refine .bind (hi.nested (hroom.mono (by omega)) .assignment Grammar.assignment (fun _ => rfl) hvs
    (by rw [hclosing]; decide) (by rw [hclosing]; decide)) fun subscript' hsubscript => ?_
  refine .bind_last (.require hclosing) fun _ _ => .suffixes_done hnext ?_ left
  rw [alike_iff] at *
  simp [hobject, hsubscript]

end Forms

namespace Expr.Readable

variable {object subscript callee value : Expr} {arguments elements : List Expr}
variable {entries : List MapEntry}

theorem sign_of_printed {e : Expr} {u : List Token} (hu : Spelled u e.printed) (v : List Token) :
    ∃ first w, u ++ v = first :: w ∧ unaryOp? first.kind = none := by
  obtain ⟨opening, u, _, rfl, hopening, -⟩ := spelled_enclose.mp hu
  exact ⟨opening, _, rfl, by rw [hopening]; rfl⟩

theorem get (ho : object.Readable) (name : String) (span : Span) :
    (Expr.get object name span).Readable := by
  refine ⟨ho.printable, fun {c depth w later closing} hroom hw hclosing => ?_⟩
  obtain ⟨us, _, rfl, hus, hname⟩ := spelled_append.mp hw
  obtain ⟨dot, _, hdot, hrest, rfl⟩ := List.forall₂_cons_right_iff.mp hname
  obtain ⟨token, rfl, htoken, rfl⟩ := spelled_singleton.mp hrest
  refine of_level .call (fun _ => sign_of_printed hus _) hclosing ?_
  exact get_gives ho (hroom.mono (by simp only [Expr.height]; omega)) hus hdot htoken
    (by rw [hclosing]; rfl) span

theorem set (ho : object.Readable) (hv : value.Readable) (name : String) (span : Span) :
    (Expr.set object name value span).Readable := by
  refine ⟨by simp [ho.printable, hv.printable],
    fun {c depth w later closing} hroom hw hclosing => ?_⟩
  simp only [Expr.inside, spelled_append, spelled_singleton] at hw
  obtain ⟨_, vs, rfl, ⟨_, _, rfl, ⟨us, _, rfl, hus, hname⟩, equals, rfl, hequals⟩, hvs⟩ := hw
  obtain ⟨dot, _, hdot, hrest, rfl⟩ := List.forall₂_cons_right_iff.mp hname
  obtain ⟨token, rfl, htoken, rfl⟩ := spelled_singleton.mp hrest
  have hequals : equals.kind = .assign := hequals
  have htarget : Gives c (us ++ [dot, token]) (equals :: (vs ++ closing :: later))
      (Parse.ternary (.ofDepth depth)) (Alike (Expr.get object token.lexeme nowhere)) :=
    .climb .call .ternary (by decide) (fun _ => sign_of_printed hus _) (by rw [hequals]; decide)
      (get_gives ho (hroom.mono (by simp only [Expr.height]; omega)) hus hdot htoken
        (by rw [hequals]; rfl) nowhere)
  refine assigned hv (hroom.mono (by simp only [Expr.height]; omega)) htarget ?_ hequals hvs
    hclosing
  intro target' value' span' htarget hvalue
  obtain ⟨object', span'', rfl, hobject⟩ := alike_get htarget
  refine ⟨_, rfl, ?_⟩
  rw [alike_iff] at *
  simp [hobject, hvalue]

theorem index (ho : object.Readable) (hi : subscript.Readable) (span : Span) :
    (Expr.index object subscript span).Readable := by
  refine ⟨by simp [ho.printable, hi.printable],
    fun {c depth w later closing} hroom hw hclosing => ?_⟩
  simp only [Expr.inside, spelled_append, spelled_singleton] at hw
  obtain ⟨_, _, rfl, ⟨_, vs, rfl, ⟨us, _, rfl, hus, opening, rfl, hopening⟩, hvs⟩, bracket, rfl,
    hbracket⟩ := hw
  simp only [List.append_assoc]
  refine of_level .call (fun _ => sign_of_printed hus _) hclosing ?_
  exact index_gives ho hi hroom hus hopening hvs hbracket (by rw [hclosing]; rfl) span

theorem indexSet (ho : object.Readable) (hi : subscript.Readable) (hv : value.Readable)
    (span : Span) :
    (Expr.indexSet object subscript value span).Readable := by
  refine ⟨by simp [ho.printable, hi.printable, hv.printable],
    fun {c depth w later closing} hroom hw hclosing => ?_⟩
  simp only [Expr.inside, spelled_append, spelled_singleton] at hw
  obtain ⟨_, xs, rfl, ⟨_, _, rfl, ⟨_, _, rfl, ⟨_, vs, rfl, ⟨us, _, rfl, hus, opening, rfl,
    hopening⟩, hvs⟩, bracket, rfl, hbracket⟩, equals, rfl, hequals⟩, hxs⟩ := hw
  have hequals : equals.kind = .assign := hequals
  have htarget : Gives c (us ++ ([opening] ++ (vs ++ [bracket])))
      (equals :: (xs ++ closing :: later)) (Parse.ternary (.ofDepth depth))
      (Alike (Expr.index object subscript nowhere)) :=
    .climb .call .ternary (by decide) (fun _ => sign_of_printed hus _) (by rw [hequals]; decide)
      (index_gives ho hi (hroom.mono (by simp only [Expr.height]; omega)) hus hopening hvs hbracket
        (by rw [hequals]; rfl) nowhere)
  rw [List.append_assoc us, List.append_assoc us, List.append_assoc [opening]]
  refine assigned hv (hroom.mono (by simp only [Expr.height]; omega)) htarget ?_ hequals hxs
    hclosing
  intro target' value' span' htarget hvalue
  obtain ⟨object', subscript', span'', rfl, hobject, hsubscript⟩ := alike_index htarget
  refine ⟨_, rfl, ?_⟩
  rw [alike_iff] at *
  simp [hobject, hsubscript, hvalue]

theorem call
    (hf : callee.Readable)
    (ha : ∀ a ∈ arguments, a.Readable)
    (hlength : arguments.length ≤ maxArguments)
    (span : Span) :
    (Expr.call callee arguments span).Readable := by
  have hall : ∀ a ∈ arguments, a.isPrintable = true := fun a hmem => (ha a hmem).printable
  refine ⟨by simpa [Expr.allPrintable_eq, hf.printable, hlength] using hall,
    fun {c depth w later closing} hroom hw hclosing => ?_⟩
  simp only [Expr.inside, Expr.printedAll_eq, spelled_append, spelled_singleton] at hw
  obtain ⟨_, _, rfl, ⟨_, vs, rfl, ⟨us, _, rfl, hus, opening, rfl, hopening⟩, hvs⟩, paren, rfl,
    hparen⟩ := hw
  have hopening : opening.kind = .leftParen := hopening
  have hparen : paren.kind = .rightParen := hparen
  simp only [List.append_assoc]
  refine of_level .call (fun _ => sign_of_printed hus _) hclosing ?_
  refine call_of_suffix (hf.primary (hroom.mono (by simp only [Expr.height]; omega)) hus
    (by rw [hopening]; decide)) fun callee' _ left hcallee => ?_
  refine .peek rfl ?_
  rw [hopening]
  refine .bind .advance fun _ _ => ?_
  refine .bind (gives_parenthesised opens_expr .arguments (fun a hmem => ?_) hlength hvs hparen)
    fun arguments' harguments => ?_
  · have := Expr.height_lt_heightOver hmem
    exact (ha a hmem).item (hroom.mono (by simp only [Expr.height]; omega)) (.inl rfl)
  · refine .bind_last (.require hparen) fun _ _ => .suffixes_done (by rw [hclosing]; rfl) ?_ left
    have harguments : arguments'.map (Expr.relocate erasure) =
      arguments.map (Expr.relocate erasure) := harguments
    rw [alike_iff] at *
    simp [hcallee, harguments]

theorem list (he : ∀ e ∈ elements, e.Readable) (span : Span) :
    (Expr.list elements span).Readable := by
  have hall : ∀ e ∈ elements, e.isPrintable = true := fun e hmem => (he e hmem).printable
  refine ⟨by simpa [Expr.allPrintable_eq] using hall,
    fun {c depth w later closing} hroom hw hclosing => ?_⟩
  simp only [Expr.inside, Expr.printedAll_eq, spelled_append, spelled_singleton] at hw
  obtain ⟨_, _, rfl, ⟨_, vs, rfl, ⟨opening, rfl, hopening⟩, hvs⟩, bracket, rfl, hbracket⟩ := hw
  have hopening : opening.kind = .leftBracket := hopening
  simp only [List.append_assoc]
  refine of_level .primary (fun _ => ⟨opening, _, rfl, by rw [hopening]; rfl⟩) hclosing ?_
  refine .peek rfl ?_
  rw [hopening]
  refine .bind .advance fun _ _ => .budget fun tokens htokens => ?_
  refine .bind (gives_listBefore opens_expr ⟨by decide, by decide⟩ (fun e hmem => ?_) hvs hbracket
    (by simp only [List.length_append] at htokens; omega)) fun elements' helements => ?_
  · have := Expr.height_lt_heightOver hmem
    exact (he e hmem).item (hroom.mono (by simp only [Expr.height]; omega)) (.inr (.inl rfl))
  · refine .bind_last (.require hbracket) fun _ _ => .spanFrom fun span' => .pure ?_
    have helements : elements'.map (Expr.relocate erasure) =
      elements.map (Expr.relocate erasure) := helements
    rw [alike_iff]
    simp [helements]

theorem map (he : ∀ entry ∈ entries, entry.Readable) (span : Span) :
    (Expr.map entries span).Readable := by
  have hall : ∀ entry ∈ entries, entry.isPrintable = true :=
    fun entry hmem => (he entry hmem).printable
  refine ⟨by simpa [MapEntry.allPrintable_eq] using hall,
    fun {c depth w later closing} hroom hw hclosing => ?_⟩
  simp only [Expr.inside, MapEntry.printedAll_eq, spelled_append, spelled_singleton] at hw
  obtain ⟨_, _, rfl, ⟨_, vs, rfl, ⟨opening, rfl, hopening⟩, hvs⟩, brace, rfl, hbrace⟩ := hw
  have hopening : opening.kind = .leftBrace := hopening
  simp only [List.append_assoc]
  refine of_level .primary (fun _ => ⟨opening, _, rfl, by rw [hopening]; rfl⟩) hclosing ?_
  refine .peek rfl ?_
  rw [hopening]
  refine .bind .advance fun _ _ => .budget fun tokens htokens => ?_
  refine .bind (gives_listBefore opens_entry ⟨by decide, by decide⟩ (fun entry hmem => ?_) hvs
    hbrace (by simp only [List.length_append] at htokens; omega)) fun entries' hentries => ?_
  · have := MapEntry.height_lt_heightOver hmem
    exact gives_mapEntry (he entry hmem) (hroom.mono (by simp only [Expr.height]; omega))
  · refine .bind_last (.require hbrace) fun _ _ => .spanFrom fun span' => .pure ?_
    have hentries : entries'.map (MapEntry.relocate erasure) =
      entries.map (MapEntry.relocate erasure) := hentries
    rw [alike_iff]
    simp [hentries]

end Expr.Readable

end Lox
