import Lox.Proofs.Classes.Activation
import Lox.Proofs.Classes.Declaration
import Lox.Proofs.Journal.Growth
import Lox.Proofs.Quiet
import Lox.Proofs.Tree.Standing

/-!
# Methods at home

A method closes over a scope in which `super` stands for the superclass of its class, and a
function that was made in a call of a method closes over a scope that belongs to this call. Machines
on which this holds of all functions and methods are `Housed`.
-/

namespace Lox

namespace Machine

/-- The later machine has all classes, methods and scopes of the earlier one, and `this` and `super`
are bound in these scopes as they were. -/
structure Evolves (m n : Machine) : Prop where
  scopes : m.scopes.Extend n.scopes
  grows : m.Grows n

namespace Evolves

variable {m n o : Machine}

theorem of_eq
    (hscopes : n.scopes = m.scopes)
    (hclasses : n.classes = m.classes)
    (hmethods : n.methods = m.methods) :
    m.Evolves n :=
  ⟨hscopes ▸ .refl _, .of_eq hclasses hmethods⟩

theorem refl (m : Machine) : m.Evolves m :=
  of_eq rfl rfl rfl

theorem trans (h : m.Evolves n) (h' : n.Evolves o) : m.Evolves o :=
  ⟨h.scopes.trans h'.scopes, h.grows.trans h'.grows⟩

theorem enter (m : Machine) (parent : ScopeId) (bindings : List Binding) :
    m.Evolves (m.enter parent bindings) := by
  rw [enter_eq]
  exact ⟨.create _ _, .of_eq rfl rfl⟩

end Evolves

/-- The method was declared in the class, in a scope that is inside the range of the machine and
that binds `super` to the superclass. -/
structure Declares (m : Machine) (f : MethodObject) (c : ClassObject) : Prop where
  owner : m.classes[f.owner]? = some c
  params : ∀ name ∈ f.params, ¬IsReserved name
  body : ∀ s ∈ f.body, s.BelongsTo (some ⟨f.body, c.superclass.isSome⟩)
  inRange : f.scope < m.scopes.all.size
  super : ∀ parent ∈ c.superclass,
    (m.scopes.get f.scope).find? "super" = some ⟨"super", .class parent, false⟩

/-- Code with this home may run in the scope: the scope belongs to a call of the method. -/
def Hosts (m : Machine) (h : Option Home) (id : ScopeId) : Prop :=
  ∀ home ∈ h, ∃ f ∈ m.methods, ∃ c receiver, m.classes[f.owner]? = some c ∧
    home = ⟨f.body, c.superclass.isSome⟩ ∧ m.scopes.InCall f.scope receiver id

end Machine

/-- A function that may be called: its body may run in the scope it closes over. -/
def FunctionObject.Housed (m : Machine) : FunctionObject → Prop
  | .closure _ params body scope =>
      ∃ h : Option Home, (∀ name ∈ params, ¬IsReserved name) ∧ (∀ s ∈ body, s.BelongsTo h) ∧
        scope < m.scopes.all.size ∧ m.Hosts h scope
  | .bound _ _ => True

/-- The class has a superclass. -/
def Machine.HasSuperclass (m : Machine) (id : ClassId) : Prop :=
  ∃ c : ClassObject, m.classes[id]? = some c ∧ c.superclass.isSome = true

/-- All functions and methods may be called, and classes with a superclass do not share the scopes
that their methods close over. -/
structure Machine.Housed (m : Machine) : Prop where
  functions : ∀ f ∈ m.functions, f.Housed m
  methods : ∀ f ∈ m.methods, ∃ c, m.Declares f c
  apart : ∀ f ∈ m.methods, ∀ g ∈ m.methods, m.HasSuperclass f.owner → m.HasSuperclass g.owner →
    f.scope = g.scope → f.owner = g.owner
  tables : ∀ (id : ClassId) (c : ClassObject), m.classes[id]? = some c →
    ListsOwn m.methods id c.methods

section Evolution

variable {m n : Machine}

theorem Machine.Declares.mono
    {f : MethodObject} {c : ClassObject}
    (h : m.Declares f c)
    (hn : m.Evolves n) :
    n.Declares f c where
  owner := hn.grows.classes h.owner
  params := h.params
  body := h.body
  inRange := Nat.lt_of_lt_of_le h.inRange hn.scopes.size_le
  super parent hparent :=
    (hn.scopes.reserved f.scope h.inRange _ (.inr rfl)).trans (h.super parent hparent)

theorem Machine.Grows.mem_methods {f : MethodObject} (h : m.Grows n) (hf : f ∈ m.methods) :
    f ∈ n.methods := by
  obtain ⟨id, hid⟩ := Array.mem_iff_getElem?.mp hf
  exact Array.mem_of_getElem? (h.methods hid)

theorem Machine.Hosts.mono
    {h : Option Home} {id : ScopeId}
    (hosts : m.Hosts h id)
    (hn : m.Evolves n)
    (hid : id < m.scopes.all.size) :
    n.Hosts h id := by
  intro home hhome
  obtain ⟨f, hf, c, receiver, howner, heq, hcall⟩ := hosts home hhome
  exact ⟨f, hn.grows.mem_methods hf, c, receiver, hn.grows.classes howner, heq,
    hcall.extend hn.scopes hid⟩

theorem FunctionObject.Housed.mono
    {f : FunctionObject}
    (h : f.Housed m)
    (hn : m.Evolves n) :
    f.Housed n := by
  cases f with
  | bound receiver method => trivial
  | closure name params body scope =>
      obtain ⟨home, hparams, hbody, hscope, hosts⟩ := h
      exact ⟨home, hparams, hbody, Nat.lt_of_lt_of_le hscope hn.scopes.size_le,
        hosts.mono hn hscope⟩

namespace Machine.Housed

/-- New functions that may be called, and new scopes. -/
theorem of_evolves
    (h : m.Housed)
    (hn : m.Evolves n)
    (hfunctions : ∀ f ∈ n.functions, f.Housed n)
    (hmethods : n.methods = m.methods)
    (hclasses : n.classes = m.classes) :
    n.Housed where
  functions := hfunctions
  methods f hf := by
    obtain ⟨c, hc⟩ := h.methods f (hmethods ▸ hf)
    exact ⟨c, hc.mono hn⟩
  apart := by
    simpa only [HasSuperclass, hmethods, hclasses] using h.apart
  tables id c hc := hmethods ▸ h.tables id c (hclasses ▸ hc)

/-- New scopes, and changes of other things than functions, methods and classes. -/
theorem of_scopes
    (h : m.Housed)
    (hn : m.Evolves n)
    (hfunctions : n.functions = m.functions)
    (hmethods : n.methods = m.methods)
    (hclasses : n.classes = m.classes) :
    n.Housed :=
  h.of_evolves hn (fun f hf => (h.functions f (hfunctions ▸ hf)).mono hn) hmethods hclasses

theorem of_quiet (h : m.Housed) (hq : Machine.Quiet m n) : n.Housed := by
  have hn : m.Evolves n := .of_eq hq.scopes hq.classes hq.methods
  refine h.of_evolves hn (fun f hf => ?_) hq.methods hq.classes
  rcases hq.functions f hf with hf | ⟨receiver, method, rfl⟩
  · exact (h.functions f hf).mono hn
  · trivial

theorem newFunction
    (h : m.Housed)
    {f : FunctionObject}
    (hf : f.Housed m) :
    (m.newFunction f).2.Housed := by
  have hn : m.Evolves (m.newFunction f).2 := .of_eq rfl rfl rfl
  refine h.of_evolves hn (fun g hg => ?_) rfl rfl
  rcases Array.mem_push.mp hg with hg | rfl
  · exact (h.functions g hg).mono hn
  · exact hf.mono hn

/-- A new class, with new methods that are declared in it. -/
theorem declare
    {ds : List FunctionDecl} {scope : ScopeId} {c : ClassObject}
    (h : m.Housed)
    (hn : m.Evolves n)
    (hfunctions : n.functions = m.functions)
    (hmethods : n.methods = m.methods ++ (ds.map (·.method m.classes.size scope)).toArray)
    (hclasses : n.classes = m.classes.push c)
    (hdeclares : ∀ d ∈ ds, n.Declares (d.method m.classes.size scope) c)
    (hfresh : c.superclass.isSome = true → m.scopes.all.size ≤ scope)
    (htable : ListsOwn n.methods m.classes.size c.methods) :
    n.Housed := by
  have hcases (f : MethodObject) (hf : f ∈ n.methods) :
      f ∈ m.methods ∨ ∃ d ∈ ds, f = d.method m.classes.size scope := by
    rw [hmethods] at hf
    rcases Array.mem_append.mp hf with hf | hf
    · exact .inl hf
    · obtain ⟨d, hd, rfl⟩ := List.mem_map.mp (List.mem_toArray.mp hf)
      exact .inr ⟨d, hd, rfl⟩
  have hold (f : MethodObject) (hf : f ∈ m.methods) (hsuper : n.HasSuperclass f.owner) :
      m.HasSuperclass f.owner := by
    obtain ⟨c', hc'⟩ := h.methods f hf
    obtain ⟨d, hd, hsome⟩ := hsuper
    obtain rfl : c' = d := Option.some.inj ((hn.grows.classes hc'.owner).symm.trans hd)
    exact ⟨c', hc'.owner, hsome⟩
  -- a new method does not share its scope with one from before
  have hnew (f : MethodObject) (hf : f ∈ m.methods) (hsuper : n.HasSuperclass m.classes.size) :
      f.scope ≠ scope := by
    obtain ⟨c', hc'⟩ := h.methods f hf
    obtain ⟨d, hd, hsome⟩ := hsuper
    obtain rfl : c = d := by simpa [hclasses] using hd
    exact Nat.ne_of_lt (Nat.lt_of_lt_of_le hc'.inRange (hfresh hsome))
  constructor
  case functions => exact fun f hf => (h.functions f (hfunctions ▸ hf)).mono hn
  case methods =>
    intro f hf
    rcases hcases f hf with hf | ⟨d, hd, rfl⟩
    · obtain ⟨d, hd⟩ := h.methods f hf
      exact ⟨d, hd.mono hn⟩
    · exact ⟨c, hdeclares d hd⟩
  case apart =>
    intro f hf g hg hfsuper hgsuper hscope
    rcases hcases f hf with hf | ⟨d, hd, rfl⟩
    · rcases hcases g hg with hg | ⟨e, he, rfl⟩
      · exact h.apart f hf g hg (hold f hf hfsuper) (hold g hg hgsuper) hscope
      · exact absurd hscope (hnew f hf hgsuper)
    · rcases hcases g hg with hg | ⟨e, he, rfl⟩
      · exact absurd hscope.symm (hnew g hg hfsuper)
      · rfl
  case tables =>
    intro id d hd
    rw [hclasses, Array.getElem?_push] at hd
    split at hd
    · next hid =>
        cases hd
        exact hid ▸ htable
    · exact (h.tables id d hd).mono hn.grows.methods

end Machine.Housed

end Evolution

theorem Machine.housed_initial (clock : Nat → Float) : (Machine.initial clock).Housed where
  functions f hf := by simp [initial] at hf
  methods f hf := by simp [initial] at hf
  apart f hf := by simp [initial] at hf
  tables id c hc := by simp [initial] at hc

end Lox
