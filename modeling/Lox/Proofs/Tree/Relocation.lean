import Lox.Tree

/-!
# Relocation

A `Relocation` changes the places in tokens and trees and nothing else: spans, and the positions of
tokens. `move` applies it to whatever holds places. Relocations that respect merging
(`Relocation.Merges`) carry the spans of a node along with those of its parts; moving a text to
another offset is one, and so is forgetting all places, `Relocation.erasure`.
-/

namespace Lox

/-- A change of spans and of positions. -/
structure Relocation where
  span : Span → Span
  position : Position → Position

/-- What holds places that can be changed. -/
class Relocatable (α : Type) where
  move : Relocation → α → α

export Relocatable (move)

namespace Relocation

/-- The relocation carries a merged span to the merged spans. -/
def Merges (r : Relocation) : Prop :=
  ∀ a b, r.span (a.merge b) = (r.span a).merge (r.span b)

/-- Every place stays where it is. -/
def identity : Relocation where
  span := id
  position := id

theorem identity_merges : identity.Merges :=
  fun _ _ => rfl

theorem nowhere_ordered : (0 : Int) ≤ 0 :=
  Int.le_refl 0

/-- The span that stands for all spans. -/
def nowhere : Span :=
  ⟨0, 0, 0, nowhere_ordered⟩

/-- All places are forgotten. -/
def erasure : Relocation where
  span := fun _ => nowhere
  position := fun _ => Position.first

/-- The spans of the characters of one text are found in a longer one, `distance` characters
further on and `lines` lines further down. -/
def shift (distance lines : Nat) : Relocation where
  span s :=
    { s with
      start := s.start + distance
      stop := s.stop + distance
      start_le_stop := by have := s.start_le_stop; omega }
  position p := { p with line := p.line + lines }

theorem shift_merges (distance lines : Nat) : (shift distance lines).Merges := by
  intro a b
  unfold Span.merge shift
  split
  · simp only [Span.mk.injEq, true_and]
    omega
  · rfl

/-- Spans of the one source and of the other change places. -/
def exchange (file other : Int) : Relocation where
  span s :=
    { s with file := if s.file = file then other else if s.file = other then file else s.file }
  position := id

theorem exchange_merges (file other : Int) : (exchange file other).Merges := by
  intro a b
  simp only [Span.merge, exchange]
  split <;> split <;> grind

/-- One relocation after another. -/
def after (r q : Relocation) : Relocation where
  span := r.span ∘ q.span
  position := r.position ∘ q.position

end Relocation

mutual

/-- Relocate an expression. -/
def Expr.relocate (r : Relocation) : Expr → Expr
  | .literal value span => .literal value (r.span span)
  | .reference name span => .reference name (r.span span)
  | .assign name value span => .assign name (value.relocate r) (r.span span)
  | .binary left op right span =>
      .binary (left.relocate r) op (right.relocate r) (r.span span)
  | .unary op operand span => .unary op (operand.relocate r) (r.span span)
  | .logical left op right span =>
      .logical (left.relocate r) op (right.relocate r) (r.span span)
  | .conditional condition thenBranch elseBranch span =>
      .conditional (condition.relocate r) (thenBranch.relocate r) (elseBranch.relocate r)
        (r.span span)
  | .call callee arguments span =>
      .call (callee.relocate r) (Expr.relocateAll r arguments) (r.span span)
  | .get object name span => .get (object.relocate r) name (r.span span)
  | .set object name value span =>
      .set (object.relocate r) name (value.relocate r) (r.span span)
  | .this span => .this (r.span span)
  | .super method span => .super method (r.span span)
  | .list elements span => .list (Expr.relocateAll r elements) (r.span span)
  | .map entries span => .map (MapEntry.relocateAll r entries) (r.span span)
  | .index object index span => .index (object.relocate r) (index.relocate r) (r.span span)
  | .indexSet object index value span =>
      .indexSet (object.relocate r) (index.relocate r) (value.relocate r) (r.span span)
  | .function params body span => .function params (Stmt.relocateAll r body) (r.span span)

/-- Relocate expressions. -/
def Expr.relocateAll (r : Relocation) : List Expr → List Expr
  | [] => []
  | e :: rest => e.relocate r :: Expr.relocateAll r rest

/-- Relocate an expression that may be missing. -/
def Expr.relocate? (r : Relocation) : Option Expr → Option Expr
  | none => none
  | some e => some (e.relocate r)

/-- Relocate a map entry. -/
def MapEntry.relocate (r : Relocation) : MapEntry → MapEntry
  | .mk key value => .mk (key.relocate r) (value.relocate r)

/-- Relocate map entries. -/
def MapEntry.relocateAll (r : Relocation) : List MapEntry → List MapEntry
  | [] => []
  | entry :: rest => entry.relocate r :: MapEntry.relocateAll r rest

/-- Relocate a statement. -/
def Stmt.relocate (r : Relocation) : Stmt → Stmt
  | .expression e span => .expression (e.relocate r) (r.span span)
  | .print e span => .print (e.relocate r) (r.span span)
  | .declare name initial isConst span =>
      .declare name (Expr.relocate? r initial) isConst (r.span span)
  | .block statements span => .block (Stmt.relocateAll r statements) (r.span span)
  | .ifElse condition thenBranch elseBranch span =>
      .ifElse (condition.relocate r) (thenBranch.relocate r) (Stmt.relocate? r elseBranch)
        (r.span span)
  | .whileLoop condition body span =>
      .whileLoop (condition.relocate r) (body.relocate r) (r.span span)
  | .doWhile body condition span =>
      .doWhile (body.relocate r) (condition.relocate r) (r.span span)
  | .forLoop initial condition increment body span =>
      .forLoop (Stmt.relocate? r initial) (Expr.relocate? r condition)
        (Expr.relocate? r increment) (body.relocate r) (r.span span)
  | .breakLoop span => .breakLoop (r.span span)
  | .continueLoop span => .continueLoop (r.span span)
  | .function declaration => .function (declaration.relocate r)
  | .returnValue value span => .returnValue (Expr.relocate? r value) (r.span span)
  | .classDecl name superclass methods span =>
      .classDecl name (superclass.map fun parent => (parent.1, r.span parent.2))
        (FunctionDecl.relocateAll r methods) (r.span span)
  | .tryBlock body handler cleanup span =>
      .tryBlock (Stmt.relocateAll r body) (CatchClause.relocate? r handler)
        (Stmt.relocateAll? r cleanup) (r.span span)
  | .throwValue value span => .throwValue (value.relocate r) (r.span span)
  | .dump span => .dump (r.span span)

/-- Relocate statements. -/
def Stmt.relocateAll (r : Relocation) : List Stmt → List Stmt
  | [] => []
  | s :: rest => s.relocate r :: Stmt.relocateAll r rest

/-- Relocate a statement that may be missing. -/
def Stmt.relocate? (r : Relocation) : Option Stmt → Option Stmt
  | none => none
  | some s => some (s.relocate r)

/-- Relocate statements that may be missing. -/
def Stmt.relocateAll? (r : Relocation) : Option (List Stmt) → Option (List Stmt)
  | none => none
  | some statements => some (Stmt.relocateAll r statements)

/-- Relocate a catch clause. -/
def CatchClause.relocate (r : Relocation) : CatchClause → CatchClause
  | .mk name body => .mk name (Stmt.relocateAll r body)

/-- Relocate a catch clause that may be missing. -/
def CatchClause.relocate? (r : Relocation) : Option CatchClause → Option CatchClause
  | none => none
  | some clause => some (clause.relocate r)

/-- Relocate a named function or a method. -/
def FunctionDecl.relocate (r : Relocation) : FunctionDecl → FunctionDecl
  | .mk name params body span => .mk name params (Stmt.relocateAll r body) (r.span span)

/-- Relocate methods. -/
def FunctionDecl.relocateAll (r : Relocation) : List FunctionDecl → List FunctionDecl
  | [] => []
  | d :: rest => d.relocate r :: FunctionDecl.relocateAll r rest

end

section Laws

open Relocation

@[simp] theorem Relocation.identity_span (s : Span) : identity.span s = s :=
  rfl

@[simp] theorem Relocation.after_span (r q : Relocation) (s : Span) :
    (r.after q).span s = r.span (q.span s) :=
  rfl

/-- Trees stay as they are if all places do. -/
theorem Relocation.relocate_identity_all :
    (∀ e : Expr, e.relocate identity = e) ∧
      (∀ s, Stmt.relocateAll identity s = s) ∧
      (∀ s : Stmt, s.relocate identity = s) ∧
      (∀ s, Stmt.relocateAll? identity s = s) ∧
      (∀ c, CatchClause.relocate? identity c = c) ∧
      (∀ c : CatchClause, c.relocate identity = c) ∧
      (∀ d, FunctionDecl.relocateAll identity d = d) ∧
      (∀ d : FunctionDecl, d.relocate identity = d) ∧
      (∀ s, Stmt.relocate? identity s = s) ∧
      (∀ e, Expr.relocate? identity e = e) ∧
      (∀ entries, MapEntry.relocateAll identity entries = entries) ∧
      (∀ entry : MapEntry, entry.relocate identity = entry) ∧
      (∀ e, Expr.relocateAll identity e = e) := by
  apply Expr.relocate.mutual_induct
  all_goals
    intros
    simp_all [Expr.relocate, Expr.relocateAll, Expr.relocate?, MapEntry.relocate,
      MapEntry.relocateAll, Stmt.relocate, Stmt.relocateAll, Stmt.relocate?, Stmt.relocateAll?,
      CatchClause.relocate, CatchClause.relocate?, FunctionDecl.relocate,
      FunctionDecl.relocateAll]

/-- One relocation of a tree after another. -/
theorem Relocation.relocate_after_all (r q : Relocation) :
    (∀ e : Expr, e.relocate (r.after q) = (e.relocate q).relocate r) ∧
      (∀ s, Stmt.relocateAll (r.after q) s = Stmt.relocateAll r (Stmt.relocateAll q s)) ∧
      (∀ s : Stmt, s.relocate (r.after q) = (s.relocate q).relocate r) ∧
      (∀ s, Stmt.relocateAll? (r.after q) s = Stmt.relocateAll? r (Stmt.relocateAll? q s)) ∧
      (∀ c, CatchClause.relocate? (r.after q) c =
        CatchClause.relocate? r (CatchClause.relocate? q c)) ∧
      (∀ c : CatchClause, c.relocate (r.after q) = (c.relocate q).relocate r) ∧
      (∀ d, FunctionDecl.relocateAll (r.after q) d =
        FunctionDecl.relocateAll r (FunctionDecl.relocateAll q d)) ∧
      (∀ d : FunctionDecl, d.relocate (r.after q) = (d.relocate q).relocate r) ∧
      (∀ s, Stmt.relocate? (r.after q) s = Stmt.relocate? r (Stmt.relocate? q s)) ∧
      (∀ e, Expr.relocate? (r.after q) e = Expr.relocate? r (Expr.relocate? q e)) ∧
      (∀ entries, MapEntry.relocateAll (r.after q) entries =
        MapEntry.relocateAll r (MapEntry.relocateAll q entries)) ∧
      (∀ entry : MapEntry, entry.relocate (r.after q) = (entry.relocate q).relocate r) ∧
      (∀ e, Expr.relocateAll (r.after q) e = Expr.relocateAll r (Expr.relocateAll q e)) := by
  apply Expr.relocate.mutual_induct
  all_goals
    intros
    simp_all [Expr.relocate, Expr.relocateAll, Expr.relocate?, MapEntry.relocate,
      MapEntry.relocateAll, Stmt.relocate, Stmt.relocateAll, Stmt.relocate?, Stmt.relocateAll?,
      CatchClause.relocate, CatchClause.relocate?, FunctionDecl.relocate,
      FunctionDecl.relocateAll, Function.comp_def]

end Laws

section Instances

instance : Relocatable Unit := ⟨fun _ a => a⟩

instance : Relocatable Bool := ⟨fun _ a => a⟩

instance : Relocatable String := ⟨fun _ a => a⟩

instance : Relocatable Span := ⟨fun r s => r.span s⟩

instance : Relocatable Token :=
  ⟨fun r t => { t with position := r.position t.position, span := r.span t.span }⟩

instance : Relocatable Expr := ⟨Expr.relocate⟩

instance : Relocatable MapEntry := ⟨MapEntry.relocate⟩

instance : Relocatable Stmt := ⟨Stmt.relocate⟩

instance : Relocatable CatchClause := ⟨CatchClause.relocate⟩

instance : Relocatable FunctionDecl := ⟨FunctionDecl.relocate⟩

instance {α : Type} [Relocatable α] : Relocatable (Option α) := ⟨fun r => Option.map (move r)⟩

instance {α : Type} [Relocatable α] : Relocatable (List α) := ⟨fun r => List.map (move r)⟩

instance {α β : Type} [Relocatable α] [Relocatable β] : Relocatable (α × β) :=
  ⟨fun r p => (move r p.1, move r p.2)⟩

end Instances

section Equations

variable (r : Relocation)

attribute [simp] Expr.relocate MapEntry.relocate Stmt.relocate CatchClause.relocate
  FunctionDecl.relocate

@[simp] theorem Span.move_eq : (move r : Span → Span) = r.span :=
  rfl

@[simp] theorem Expr.move_eq : (move r : Expr → Expr) = Expr.relocate r :=
  rfl

@[simp] theorem MapEntry.move_eq : (move r : MapEntry → MapEntry) = MapEntry.relocate r :=
  rfl

@[simp] theorem Stmt.move_eq : (move r : Stmt → Stmt) = Stmt.relocate r :=
  rfl

@[simp] theorem CatchClause.move_eq : (move r : CatchClause → CatchClause) = CatchClause.relocate r :=
  rfl

@[simp] theorem FunctionDecl.move_eq :
    (move r : FunctionDecl → FunctionDecl) = FunctionDecl.relocate r :=
  rfl

@[simp] theorem String.move_eq : (move r : String → String) = id :=
  rfl

@[simp] theorem Bool.move_eq : (move r : Bool → Bool) = id :=
  rfl

@[simp] theorem List.move_eq {α : Type} [Relocatable α] :
    (move r : List α → List α) = List.map (move r) :=
  rfl

@[simp] theorem Option.move_eq {α : Type} [Relocatable α] :
    (move r : Option α → Option α) = Option.map (move r) :=
  rfl

@[simp] theorem Prod.move_eq {α β : Type} [Relocatable α] [Relocatable β] :
    (move r : α × β → α × β) = Prod.map (move r) (move r) :=
  rfl

@[simp] theorem Expr.relocateAll_eq (es : List Expr) :
    Expr.relocateAll r es = es.map (Expr.relocate r) := by
  induction es with
  | nil => rfl
  | cons e rest ih => exact congrArg (e.relocate r :: ·) ih

@[simp] theorem Expr.relocate?_eq (e : Option Expr) :
    Expr.relocate? r e = e.map (Expr.relocate r) := by
  cases e <;> rfl

@[simp] theorem MapEntry.relocateAll_eq (entries : List MapEntry) :
    MapEntry.relocateAll r entries = entries.map (MapEntry.relocate r) := by
  induction entries with
  | nil => rfl
  | cons entry rest ih => exact congrArg (entry.relocate r :: ·) ih

@[simp] theorem Stmt.relocateAll_eq (statements : List Stmt) :
    Stmt.relocateAll r statements = statements.map (Stmt.relocate r) := by
  induction statements with
  | nil => rfl
  | cons s rest ih => exact congrArg (s.relocate r :: ·) ih

@[simp] theorem Stmt.relocate?_eq (s : Option Stmt) :
    Stmt.relocate? r s = s.map (Stmt.relocate r) := by
  cases s <;> rfl

@[simp] theorem Stmt.relocateAll?_eq (s : Option (List Stmt)) :
    Stmt.relocateAll? r s = s.map (List.map (Stmt.relocate r)) := by
  cases s with
  | none => rfl
  | some statements => exact congrArg some (Stmt.relocateAll_eq r statements)

@[simp] theorem CatchClause.relocate?_eq (c : Option CatchClause) :
    CatchClause.relocate? r c = c.map (CatchClause.relocate r) := by
  cases c <;> rfl

@[simp] theorem FunctionDecl.relocateAll_eq (ds : List FunctionDecl) :
    FunctionDecl.relocateAll r ds = ds.map (FunctionDecl.relocate r) := by
  induction ds with
  | nil => rfl
  | cons d rest ih => exact congrArg (d.relocate r :: ·) ih

@[simp] theorem Token.kind_move (t : Token) : (move r t).kind = t.kind :=
  rfl

@[simp] theorem Token.lexeme_move (t : Token) : (move r t).lexeme = t.lexeme :=
  rfl

@[simp] theorem Token.literal_move (t : Token) : (move r t).literal = t.literal :=
  rfl

@[simp] theorem Token.span_move (t : Token) : (move r t).span = r.span t.span :=
  rfl

@[simp] theorem Expr.span_relocate (e : Expr) : (e.relocate r).span = r.span e.span := by
  cases e <;> rfl

@[simp] theorem Stmt.span_relocate (s : Stmt) : (s.relocate r).span = r.span s.span := by
  cases s with
  | function d => cases d; rfl
  | _ => rfl

end Equations

section Laws

theorem Relocation.identity_move (statements : List Stmt) :
    move identity statements = statements := by
  rw [List.move_eq, Stmt.move_eq, ← Stmt.relocateAll_eq]
  exact relocate_identity_all.2.1 statements

/-- Forgetting all places undoes every change of them. -/
theorem Relocation.erasure_move (r : Relocation) (statements : List Stmt) :
    move erasure (move r statements) = move erasure statements := by
  simp only [List.move_eq, Stmt.move_eq, ← Stmt.relocateAll_eq]
  exact ((relocate_after_all erasure r).2.1 statements).symm

end Laws

end Lox
