import Lox.Proofs.Tree.Placement

/-!
# Code in the body of a method

Each piece of code in a class stands in the body of one method, if the methods of classes inside it
are left out: the innermost method around it. This is the method that `this` and `super` refer to,
also in the functions inside it. Code outside of all classes stands in no method.
-/

namespace Lox

mutual

/-- The expression stands in the body of a method. -/
inductive Expr.StandsIn (body : List Stmt) : Expr → Prop
  | part {e e' : Expr} : Expr.StandsIn body e → e' ∈ e.parts → Expr.StandsIn body e'
  | expression {s : Stmt} {e : Expr} :
      Stmt.StandsIn body s → e ∈ s.expressions → Expr.StandsIn body e

/-- The statement stands in the body of a method, but not in a method of a class there. -/
inductive Stmt.StandsIn (body : List Stmt) : Stmt → Prop
  | here {s : Stmt} : s ∈ body → Stmt.StandsIn body s
  | branch {s t : Stmt} : Stmt.StandsIn body s → t ∈ s.branches → Stmt.StandsIn body t
  | inner {s t : Stmt} : Stmt.StandsIn body s → t ∈ s.inner → Stmt.StandsIn body t
  | loopBody {s t : Stmt} : Stmt.StandsIn body s → t ∈ s.loopBody? → Stmt.StandsIn body t
  | function {s t : Stmt} {d : FunctionDecl} :
      Stmt.StandsIn body s → d ∈ s.functions → t ∈ d.body → Stmt.StandsIn body t
  | lambda {e : Expr} {t : Stmt} : Expr.StandsIn body e → t ∈ e.body → Stmt.StandsIn body t

end

/-- The method that code stands in: its body, and whether its class has a superclass. -/
structure Home where
  body : List Stmt
  hasSuperclass : Bool

/-- The constructs are around code with this home; code without a home is in no class. -/
def Enclosure.InHome (k : Enclosure) (h : Option Home) : Prop :=
  k.classHasSuperclass = h.map (·.hasSuperclass)

/-- The expression is well placed and stands in its home, if it has one. -/
structure Expr.BelongsTo (h : Option Home) (e : Expr) : Prop where
  placed : ∃ k : Enclosure, k.InHome h ∧ e.Placed k
  stands : ∀ home ∈ h, e.StandsIn home.body

/-- The statement is well placed and stands in its home, if it has one. -/
structure Stmt.BelongsTo (h : Option Home) (s : Stmt) : Prop where
  placed : ∃ k : Enclosure, k.InHome h ∧ s.Placed k
  stands : ∀ home ∈ h, s.StandsIn home.body

namespace Expr.BelongsTo

variable {h : Option Home} {e : Expr}

theorem names (he : e.BelongsTo h) : ∀ name ∈ e.names, ¬IsReserved name := by
  obtain ⟨k, -, hplaced⟩ := he.placed
  exact hplaced.allowed.1

theorem parts (he : e.BelongsTo h) : ∀ part ∈ e.parts, part.BelongsTo h := by
  intro part hpart
  obtain ⟨k, hk, hplaced⟩ := he.placed
  exact ⟨⟨k, hk, hplaced.parts part hpart⟩, fun home hh => .part (he.stands home hh) hpart⟩

/-- The body of a function has the home of the expression that makes the function. -/
theorem body (he : e.BelongsTo h) : ∀ s ∈ e.body, s.BelongsTo h := by
  intro s hs
  obtain ⟨k, hk, hplaced⟩ := he.placed
  exact ⟨⟨k.enterFunction, hk, hplaced.body s hs⟩, fun home hh => .lambda (he.stands home hh) hs⟩

/-- Whoever refers to `super` stands in a method of a class with a superclass. -/
theorem of_super {method : String} {span : Span} (he : (Expr.super method span).BelongsTo h) :
    ∃ body, h = some ⟨body, true⟩ ∧ (Expr.super method span).StandsIn body := by
  obtain ⟨k, hk, hplaced⟩ := he.placed
  have hclass : h.map (·.hasSuperclass) = some true := hk.symm.trans hplaced.allowed.2
  obtain ⟨⟨body, hasSuperclass⟩, rfl, hsuper⟩ := Option.map_eq_some_iff.mp hclass
  obtain rfl : hasSuperclass = true := hsuper
  exact ⟨body, rfl, he.stands _ rfl⟩

end Expr.BelongsTo

namespace Stmt.BelongsTo

variable {h : Option Home} {s : Stmt}

theorem names (hs : s.BelongsTo h) : ∀ name ∈ s.names, ¬IsReserved name := by
  obtain ⟨k, -, hplaced⟩ := hs.placed
  exact hplaced.allowed.1

theorem expressions (hs : s.BelongsTo h) : ∀ e ∈ s.expressions, e.BelongsTo h := by
  intro e he
  obtain ⟨k, hk, hplaced⟩ := hs.placed
  exact ⟨⟨k, hk, hplaced.expressions e he⟩, fun home hh => .expression (hs.stands home hh) he⟩

theorem branches (hs : s.BelongsTo h) : ∀ t ∈ s.branches, t.BelongsTo h := by
  intro t ht
  obtain ⟨k, hk, hplaced⟩ := hs.placed
  exact ⟨⟨k, hk, hplaced.branches t ht⟩, fun home hh => .branch (hs.stands home hh) ht⟩

theorem inner (hs : s.BelongsTo h) : ∀ t ∈ s.inner, t.BelongsTo h := by
  intro t ht
  obtain ⟨k, hk, hplaced⟩ := hs.placed
  exact ⟨⟨k, hk, hplaced.inner t ht⟩, fun home hh => .inner (hs.stands home hh) ht⟩

theorem loopBody (hs : s.BelongsTo h) : ∀ t ∈ s.loopBody?, t.BelongsTo h := by
  intro t ht
  obtain ⟨k, hk, hplaced⟩ := hs.placed
  exact ⟨⟨k.enterLoop, hk, hplaced.loopBody t ht⟩,
    fun home hh => .loopBody (hs.stands home hh) ht⟩

theorem functions (hs : s.BelongsTo h) : ∀ d ∈ s.functions, ∀ t ∈ d.body, t.BelongsTo h := by
  intro d hd t ht
  obtain ⟨k, hk, hplaced⟩ := hs.placed
  exact ⟨⟨k.enterFunction, hk, hplaced.functions d hd t ht⟩,
    fun home hh => .function (hs.stands home hh) hd ht⟩

/-- A method is the home of its body. -/
theorem methods (hs : s.BelongsTo h) :
    ∀ d ∈ s.methods, ∀ t ∈ d.body, t.BelongsTo (some ⟨d.body, s.hasSuperclass⟩) := by
  intro d hd t ht
  obtain ⟨k, -, hplaced⟩ := hs.placed
  refine ⟨⟨(k.enterClass s.hasSuperclass).enterFunction, rfl, hplaced.methods d hd t ht⟩,
    fun home hh => ?_⟩
  obtain rfl := Option.mem_some_iff.mp hh
  exact .here ht

/-- Well-placed code outside of all classes needs no home. -/
theorem of_placed {k : Enclosure} (hs : s.Placed k) (hk : k.classHasSuperclass = none) :
    s.BelongsTo none :=
  ⟨⟨k, hk, hs⟩, nofun⟩

end Stmt.BelongsTo

section Standing

variable {body : List Stmt} {hasSuperclass : Bool}

mutual

/-- The method is the home of all code that stands in its body. -/
theorem Expr.StandsIn.belongsTo (hbody : ∀ s ∈ body, s.BelongsTo (some ⟨body, hasSuperclass⟩)) :
    ∀ {e : Expr}, e.StandsIn body → e.BelongsTo (some ⟨body, hasSuperclass⟩)
  | _, .part he hpart => (he.belongsTo hbody).parts _ hpart
  | _, .expression hs he => (hs.belongsTo hbody).expressions _ he

theorem Stmt.StandsIn.belongsTo (hbody : ∀ s ∈ body, s.BelongsTo (some ⟨body, hasSuperclass⟩)) :
    ∀ {s : Stmt}, s.StandsIn body → s.BelongsTo (some ⟨body, hasSuperclass⟩)
  | _, .here hs => hbody _ hs
  | _, .branch hs ht => (hs.belongsTo hbody).branches _ ht
  | _, .inner hs ht => (hs.belongsTo hbody).inner _ ht
  | _, .loopBody hs ht => (hs.belongsTo hbody).loopBody _ ht
  | _, .function hs hd ht => (hs.belongsTo hbody).functions _ hd _ ht
  | _, .lambda he ht => (he.belongsTo hbody).body _ ht

end

end Standing

end Lox
