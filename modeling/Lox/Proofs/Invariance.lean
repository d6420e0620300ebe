import Lox.Proofs.Classes.Declaration
import Lox.Proofs.Elementary
import Lox.Proofs.Scopes
import Lox.Proofs.Simulation.Statement

/-!
# Invariants of running programs

An `Invariance` is a property of one machine, in a setting and at a place, that code is to keep.
It is the simulation of a run by itself in which the property holds all the time. Quiet operations
keep such a property by one law, so `Invariance.Lawful` asks only about scopes, calls, functions
and classes. If a property survives every single step of the declaration of a class, it survives the
declaration as a whole (`Invariance.Laws.defineClass`).
-/

namespace Lox

namespace Machine

/-- The methods of a class may close over the scope: it is the current one, or within that one a
scope that binds `super`. -/
def IsClassScope (m : Machine) (hasSuperclass : Bool) (scope : ScopeId) : Prop :=
  match hasSuperclass with
  | false => scope = m.current
  | true => ∃ c, m.scopes.get scope = ⟨some m.current, [⟨"super", .class c, false⟩]⟩

end Machine

/-- A property of a machine on which code runs in a setting, at a place. -/
structure Invariance (code : Discipline) where
  Place : Type
  /-- The scope that is current at a place. -/
  scope : Place → ScopeId
  holds : code.Setting → Place → Machine → Prop
  /-- The places that the iterations of a loop have in turn. -/
  beside : Place → Place → Prop

namespace Invariance

variable {code : Discipline}

/-- When code of the setting `l` ends that started at the place `q`, the scope that was current on
`m` can be current again at `p`. -/
def Returns
    (I : Invariance code)
    (k : code.Setting)
    (p : I.Place)
    (m : Machine)
    (l : code.Setting)
    (q : I.Place) :
    Prop :=
  ∀ r n, I.beside q r → I.holds l r n → I.holds k p (n.leave m.current)

/-- What is to be shown of an invariant, classes aside. -/
structure Laws (I : Invariance code) : Prop where
  beside_refl : ∀ p, I.beside p p
  beside_trans : ∀ {p q r}, I.beside p q → I.beside q r → I.beside p r
  current : ∀ {k p m}, code.runs k → I.holds k p m → m.current = I.scope p
  quiet : ∀ {k p m n}, I.holds k p m → Machine.Quiet m n → I.holds k p n
  loop : ∀ {k p m}, I.holds (code.loop (code.block k)) p m ↔ I.holds (code.block k) p m
  enter : ∀ {k p m bindings}, code.runs k → I.holds k p m →
    (∀ b ∈ bindings, code.binds k b.name) →
    ∃ q, I.holds (code.block k) q (m.enter m.current bindings) ∧ I.Returns k p m (code.block k) q
  copy : ∀ {k p m}, code.runs k → I.holds (code.block k) p m →
    ∃ q, I.beside p q ∧ I.holds (code.block k) q (m.enterCopy m.current)
  call : ∀ {k p m} (frame : Frame), I.holds k p m →
    ∃ q, I.holds k q (m.pushFrame frame) ∧ ∀ n, I.holds k q n → I.holds k p n.popFrame
  closure : ∀ {k p} {m : Machine} {id : FunctionId} {name params body scope}
      (arguments : List Value), I.holds k p m →
    m.functions[id]? = some (.closure name params body scope) →
    ∃ l q, code.body l body ∧
      I.holds l q (m.enter scope (parameterBindings params arguments)) ∧ I.Returns k p m l q
  methodBody : ∀ {k p} {m : Machine} {id : MethodId} {f} (receiver : InstanceId)
      (arguments : List Value), I.holds k p m →
    m.methods[id]? = some f →
    ∃ l q, code.body l f.body ∧
      I.holds l q
        ((m.bindThis f.scope receiver).enter (m.newScope f.scope).1
          (parameterBindings f.params arguments)) ∧
      I.Returns k p m l q
  assign : ∀ {k p m name e span} (v : Value), code.expr k (.assign name e span) → I.holds k p m →
    I.holds k p (m.assign m.current name v).2
  newClosure : ∀ {k p m params body span},
    code.expr k (.function params body span) → I.holds k p m →
    I.holds k p (m.newFunction (.closure "lambda" params body m.current)).2
  newFunction : ∀ {k p m d}, code.stmt k (.function d) → I.holds k p m →
    I.holds k p (m.newFunction (.closure d.name d.params d.body m.current)).2
  define : ∀ {k p m s name} (v : Value) (isConst : Bool), code.stmt k s → name ∈ s.declared? →
    I.holds k p m → I.holds k p (m.define m.current ⟨name, v, isConst⟩)

/-- What is to be shown of an invariant. -/
structure Lawful (I : Invariance code) : Prop extends Laws I where
  defineClass : ∀ {k p m name superclass methods span} {parent : Option ClassId},
    code.stmt k (.classDecl name superclass methods span) →
    parent.isSome = superclass.isSome → I.holds k p m →
    I.holds k p (Eval.defineClass name parent methods m).machine

/-- Every step of the declaration of a class keeps the invariant, even out of its order. -/
structure KeptByClassSteps (I : Invariance code) : Prop where
  bindSuper : ∀ {k p m name parent methods span} (superclass : ClassId),
    code.stmt k (.classDecl name (some parent) methods span) → I.holds k p m →
    I.holds k p (m.bindSuper m.current superclass)
  newMethod : ∀ {k p m name superclass methods span d scope}
      (owner : ClassId) (isInitializer : Bool),
    code.stmt k (.classDecl name superclass methods span) → d ∈ methods →
    m.IsClassScope superclass.isSome scope → I.holds k p m →
    I.holds k p (m.newMethod ⟨d.name, d.params, d.body, scope, owner, isInitializer⟩).2
  newClass : ∀ {k p m name superclass methods span} (c : ClassObject),
    code.stmt k (.classDecl name superclass methods span) → I.holds k p m →
    I.holds k p (m.newClass c).2

/-- The simulation of a run by itself, in which the invariant holds. -/
def simulation (I : Invariance code) : Simulation code where
  Place := I.Place
  scope := I.scope
  rel k p m m' := m = m' ∧ I.holds k p m
  beside := I.beside
  value _ := True
  method _ := True

section Class

open Eval

variable {I : Invariance code}
variable {k : code.Setting} {p : I.Place} {m : Machine}
variable {name : String} {superclass : Option (String × Span)} {methods : List FunctionDecl}
variable {span : Span}

/-- The scope for the methods of a class is found or made. -/
theorem KeptByClassSteps.classScope
    (hI : I.KeptByClassSteps)
    {parent : Option ClassId}
    (hs : code.stmt k (.classDecl name superclass methods span))
    (hparent : parent.isSome = superclass.isSome)
    (hm : I.holds k p m) :
    ∃ scope n, Eval.classScope parent m = .done scope n ∧ I.holds k p n ∧
      n.IsClassScope superclass.isSome scope := by
  cases parent with
  | none =>
      refine ⟨m.current, m, rfl, hm, ?_⟩
      rw [← hparent]
      rfl
  | some c =>
      cases superclass with
      | none => cases hparent
      | some parent =>
          refine ⟨m.scopes.all.size, m.bindSuper m.current c, rfl, hI.bindSuper c hs hm, c, ?_⟩
          exact m.scopes.get_define_create ⟨some m.current, []⟩ ⟨"super", .class c, false⟩

theorem KeptByClassSteps.makeMethods
    (hI : I.KeptByClassSteps)
    {scope : ScopeId}
    (owner : ClassId)
    (hs : code.stmt k (.classDecl name superclass methods span))
    (ds : List FunctionDecl)
    (table : List (String × MethodId))
    (m : Machine)
    (hds : ∀ d ∈ ds, d ∈ methods)
    (hm : I.holds k p m)
    (hscope : m.IsClassScope superclass.isSome scope) :
    ∃ table' n, Eval.makeMethods owner scope ds table m = .done table' n ∧ I.holds k p n := by
  induction ds generalizing table m with
  | nil => exact ⟨table, m, rfl, hm⟩
  | cons d rest ih =>
      have hmethod := hI.newMethod owner (d.name == "init") hs (hds d (by simp)) hscope hm
      exact ih _ _ (fun e he => hds e (by simp [he])) hmethod hscope

/-- What every step of a class declaration keeps is kept by the whole of it. -/
theorem Laws.defineClass
    (hI : I.Laws)
    (hsteps : I.KeptByClassSteps)
    {parent : Option ClassId}
    (hs : code.stmt k (.classDecl name superclass methods span))
    (hparent : parent.isSome = superclass.isSome)
    (hm : I.holds k p m) :
    I.holds k p (Eval.defineClass name parent methods m).machine := by
  have hdefined := hI.define .nil false hs rfl hm
  obtain ⟨scope, m₁, hclassScope, hm₁, hscope⟩ := hsteps.classScope hs hparent hdefined
  obtain ⟨table, m₂, hmake, hm₂⟩ :=
    hsteps.makeMethods m₁.classes.size hs methods [] m₁ (fun _ h => h) hm₁ hscope
  have hclass := hsteps.newClass ⟨name, parent, table⟩ hs hm₂
  have hlast := hI.define (.class m₂.classes.size) false hs rfl hclass
  simp only [Eval.defineClass, bind_apply, Eval.define, update, ask, make, Outcome.andThen,
    hclassScope, hmake]
  exact hlast

/-- The declaration of a class ends normally. -/
theorem defineClass_normal
    {parent : Option ClassId}
    {signal : Signal}
    {n : Machine}
    (h : Eval.defineClass name parent methods m = .done signal n) :
    signal = .normal := by
  obtain ⟨table, heq, -⟩ := Eval.defineClass_eq name parent methods m
  rw [heq] at h
  cases h
  rfl

end Class

section Simulation

open Eval

variable {I : Invariance code}
variable {k : code.Setting} {p : I.Place} {α : Type}

/-- What stops a run may carry any value. -/
theorem carries (why : Interruption) : why.Carries fun _ => True := by
  cases why <;> trivial

/-- A computation is safe if it keeps the invariant whichever way it ends. -/
theorem safe
    {V : α → Prop} {c : Eval α}
    (h : ∀ m, I.holds k p m →
      I.holds k p (c m).machine ∧ ∀ a n, c m = .done a n → V a) :
    I.simulation.Safe k p V c := by
  rintro m _ ⟨rfl, hm⟩
  obtain ⟨hn, hv⟩ := h m hm
  cases ho : c m with
  | done a n =>
      rw [ho] at hn
      exact .done (hv a n ho) ⟨rfl, hn⟩
  | stopped why n =>
      rw [ho] at hn
      exact .stopped (carries why) ⟨rfl, hn⟩

theorem Laws.safe_of_quiet
    (hI : I.Laws)
    {V : α → Prop} {c : Eval α}
    (hc : c.Elementary Machine.Quiet)
    (hV : ∀ a, V a) :
    I.simulation.Safe k p V c :=
  safe fun m hm => ⟨hI.quiet hm (hc.steps m), fun a _ _ => hV a⟩

/-- A lawful invariant gives a lawful simulation. -/
theorem Lawful.simulation (hI : I.Lawful) : I.simulation.Lawful where
  beside_refl := hI.beside_refl
  beside_trans := hI.beside_trans
  value_plain _ := trivial
  current hk := by
    rintro ⟨rfl, hm⟩
    exact ⟨hI.current hk hm, hI.current hk hm⟩
  frames := by
    rintro _ _ _ _ ⟨rfl, -⟩
    rfl
  loop := ⟨fun h => ⟨h.1, hI.loop.mp h.2⟩, fun h => ⟨h.1, hI.loop.mpr h.2⟩⟩
  enter hk := by
    rintro ⟨rfl, hm⟩ hb
    obtain ⟨q, hq, hreturns⟩ := hI.enter hk hm fun b h => (hb b h).1
    refine ⟨q, ⟨rfl, hq⟩, ?_⟩
    rintro r n _ hqr ⟨rfl, hn⟩
    exact ⟨rfl, hreturns r n hqr hn⟩
  copy hk := by
    rintro ⟨rfl, hm⟩
    obtain ⟨q, hpq, hq⟩ := hI.copy hk hm
    exact ⟨q, hpq, rfl, hq⟩
  call frame := by
    rintro ⟨rfl, hm⟩
    obtain ⟨q, hq, hreturn⟩ := hI.call frame hm
    refine ⟨q, ⟨rfl, hq⟩, ?_⟩
    rintro n _ ⟨rfl, hn⟩
    exact ⟨rfl, hreturn n hn⟩
  callee := by
    rintro _ _ _ _ _ - ⟨rfl, -⟩
    exact ⟨rfl, rfl⟩
  function := by
    rintro _ _ _ _ _ - ⟨rfl, -⟩
    rfl
  bound _ _ _ := ⟨trivial, trivial⟩
  closure := by
    rintro k p m _ id name params body scope arguments - ⟨rfl, hm⟩ hf -
    obtain ⟨l, q, hbody, hq, hreturns⟩ := hI.closure arguments hm hf
    refine ⟨l, q, hbody, ⟨rfl, hq⟩, ?_⟩
    rintro r n _ hqr ⟨rfl, hn⟩
    exact ⟨rfl, hreturns r n hqr hn⟩
  findMethod name := by
    rintro - ⟨rfl, -⟩
    exact ⟨rfl, fun _ _ => trivial⟩
  methods := by
    rintro _ _ _ _ _ - ⟨rfl, -⟩
    rfl
  methodBody := by
    rintro k p m _ id f receiver arguments - - ⟨rfl, hm⟩ hf -
    obtain ⟨l, q, hbody, hq, hreturns⟩ := hI.methodBody receiver arguments hm hf
    refine ⟨l, q, hbody, ⟨rfl, hq⟩, ?_⟩
    rintro r n _ hqr ⟨rfl, hn⟩
    exact ⟨rfl, hreturns r n hqr hn⟩
  newInstance := by
    rintro k p m _ id - ⟨rfl, hm⟩
    exact ⟨rfl, trivial, rfl, hI.quiet hm (.of_eq rfl rfl rfl rfl rfl rfl)⟩
  native _ _ := hI.safe_of_quiet (.callNative _ _) fun _ => trivial
  lookup _ := hI.safe_of_quiet (.lookup _) fun _ => trivial
  this _ := hI.safe_of_quiet (.lookup _) fun _ => trivial
  super _ := hI.safe_of_quiet (.evaluateSuper _) fun _ => trivial
  assign {k p name e span v} he _ := by
    refine safe fun m hm => ⟨?_, fun _ _ _ => trivial⟩
    have h := hI.assign v he hm
    simp only [Eval.assign, Eval.attempt]
    generalize Machine.assign m m.current name v = result at h
    obtain ⟨result, n⟩ := result
    cases result <;> exact h
  makeClosure he := safe fun m hm => ⟨hI.newClosure he hm, fun _ _ _ => trivial⟩
  property name _ _ := hI.safe_of_quiet (.property _ name) fun _ => trivial
  setField _ _ _ _ :=
    hI.safe_of_quiet (.update fun _ => .of_eq rfl rfl rfl rfl rfl rfl) fun _ => trivial
  item _ _ _ := hI.safe_of_quiet (.item _ _) fun _ => trivial
  setItem _ _ _ _ := hI.safe_of_quiet (.setItem _ _ _) fun _ => trivial
  newList _ _ := hI.safe_of_quiet (.newList _) fun _ => trivial
  newMap _ := hI.safe_of_quiet (.newMap _) fun _ => trivial
  text := by
    rintro _ _ _ _ _ - ⟨rfl, -⟩
    rfl
  print line _ := by
    rintro ⟨rfl, hm⟩
    exact ⟨rfl, hI.quiet hm (.of_eq rfl rfl rfl rfl rfl rfl)⟩
  lastValue _ _ := by
    rintro ⟨rfl, hm⟩
    exact ⟨rfl, hI.quiet hm (.of_eq rfl rfl rfl rfl rfl rfl)⟩
  dump _ := by
    refine safe fun m hm => ⟨hI.quiet hm (Elementary.dumpBindings.steps m), ?_⟩
    intro a n h
    cases h
    trivial
  declare hs _ := safe fun m hm => ⟨hI.define _ _ hs rfl hm, fun _ _ _ => trivial⟩
  declareFunction hs := by
    refine safe fun m hm => ⟨hI.define _ _ hs rfl (hI.newFunction hs hm), ?_⟩
    intro a n h
    cases h
    trivial
  defineClass hs hparent _ := by
    refine safe fun m hm => ⟨hI.defineClass hs hparent hm, fun a n h => ?_⟩
    rw [defineClass_normal h]
    trivial

end Simulation

end Invariance

end Lox
