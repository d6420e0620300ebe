import Lox.Proofs.Entering
import Lox.Proofs.Invariance
import Lox.Proofs.SoundScopes

/-!
# Sound machines

A machine is sound if its scopes are, and if every function and method on it has a well-placed
body and closes over a scope that serves this body. Well-placed code that runs in a scope that
serves it keeps the machine sound.
-/

namespace Lox

/-- A function that may be called: there are constructs around its body that suit the body, and
the scope it closes over serves code inside them. -/
def FunctionObject.Sound (scopes : Scopes) : FunctionObject → Prop
  | .closure _ params body scope =>
      ∃ k : Enclosure, (∀ name ∈ params, ¬IsReserved name) ∧
        (∀ s ∈ body, s.Placed k.enterFunction) ∧
        scope < scopes.all.size ∧ scopes.Serves k scope
  | .bound _ _ => True

/-- A method that may be called. The scope it closes over need not bind `this`, which a call does.
-/
def MethodObject.Sound (scopes : Scopes) (f : MethodObject) : Prop :=
  ∃ (k : Enclosure) (hasSuperclass : Bool), (∀ name ∈ f.params, ¬IsReserved name) ∧
    (∀ s ∈ f.body, s.Placed (k.enterClass hasSuperclass).enterFunction) ∧
    f.scope < scopes.all.size ∧ (hasSuperclass = true → scopes.Binds f.scope "super")

section Kept

variable {names : ScopeId → String → Prop} {old new : Scopes}

theorem FunctionObject.Sound.of_kept
    {f : FunctionObject}
    (h : f.Sound old)
    (hkept : old.Kept names new) :
    f.Sound new := by
  cases f with
  | bound receiver method => trivial
  | closure name params body scope =>
      obtain ⟨k, hparams, hbody, hscope, hserves⟩ := h
      exact ⟨k, hparams, hbody, Nat.lt_of_lt_of_le hscope hkept.size_le,
        hserves.of_kept hkept hscope⟩

theorem MethodObject.Sound.of_kept
    {f : MethodObject}
    (h : f.Sound old)
    (hkept : old.Kept names new) :
    f.Sound new := by
  obtain ⟨k, hasSuperclass, hparams, hbody, hscope, hsuper⟩ := h
  exact ⟨k, hasSuperclass, hparams, hbody, Nat.lt_of_lt_of_le hscope hkept.size_le,
    fun hk => (hsuper hk).of_kept hkept hscope⟩

end Kept

/-- The scopes are sound, and so is every function and method. -/
structure Machine.Sound (m : Machine) : Prop where
  scopes : m.scopes.Sound
  functions : ∀ f ∈ m.functions, f.Sound m.scopes
  methods : ∀ f ∈ m.methods, f.Sound m.scopes

namespace Machine.Sound

variable {m : Machine}

/-- Only the scopes have changed. -/
theorem of_scopes
    {names : ScopeId → String → Prop} {n : Machine}
    (h : m.Sound)
    (hkept : m.scopes.Kept names n.scopes)
    (hscopes : n.scopes.Sound)
    (hfunctions : n.functions = m.functions)
    (hmethods : n.methods = m.methods) :
    n.Sound where
  scopes := hscopes
  functions f hf := (h.functions f (hfunctions ▸ hf)).of_kept hkept
  methods f hf := (h.methods f (hmethods ▸ hf)).of_kept hkept

theorem of_quiet {n : Machine} (h : m.Sound) (hq : Machine.Quiet m n) : n.Sound where
  scopes := hq.scopes ▸ h.scopes
  functions f hf := by
    rw [hq.scopes]
    rcases hq.functions f hf with hf | ⟨receiver, method, rfl⟩
    · exact h.functions f hf
    · trivial
  methods f hf := by
    rw [hq.scopes]
    exact h.methods f (hq.methods ▸ hf)

theorem newFunction
    (h : m.Sound)
    {f : FunctionObject}
    (hf : f.Sound m.scopes) :
    (m.newFunction f).2.Sound where
  scopes := h.scopes
  functions g hg := by
    rcases Array.mem_push.mp hg with hg | rfl
    · exact h.functions g hg
    · exact hf
  methods := h.methods

theorem newMethod
    (h : m.Sound)
    {f : MethodObject}
    (hf : f.Sound m.scopes) :
    (m.newMethod f).2.Sound where
  scopes := h.scopes
  functions := h.functions
  methods g hg := by
    rcases Array.mem_push.mp hg with hg | rfl
    · exact h.methods g hg
    · exact hf

end Machine.Sound

theorem Machine.sound_initial (clock : Nat → Float) : (Machine.initial clock).Sound where
  scopes := by
    constructor
    · rintro (_ | _ | id) parent h
      · simp [Machine.initial, Scopes.get] at h
      · simp only [Machine.initial, Scopes.get, Machine.builtinScope] at h
        cases h
        exact Nat.zero_lt_one
      · simp [Machine.initial, Scopes.get] at h
    · rintro (_ | _ | id) b hb
      · refine Binding.proper_of_not_isReserved ?_
        simp [Machine.initial, Scopes.get, Builtin.all, List.mapIdx_cons] at hb
        rcases hb with rfl | rfl | rfl | rfl <;> simp [IsReserved, Builtin.name]
      · simp [Machine.initial, Scopes.get] at hb
      · simp [Machine.initial, Scopes.get] at hb
  functions f hf := by simp [Machine.initial] at hf
  methods f hf := by simp [Machine.initial] at hf

/-- Only well-placed code runs. -/
def Enclosure.discipline : Discipline where
  Setting := Enclosure
  runs _ := True
  expr k e := e.Placed k
  stmt k s := s.Placed k
  body k statements := k.inFunction = true ∧ k.inLoop = false ∧ ∀ s ∈ statements, s.Placed k
  binds _ name := ¬IsReserved name
  breaks k := k.inLoop = true
  returns k := k.inFunction = true
  block k := k
  loop k := k.enterLoop
  runs_expr _ := trivial
  runs_stmt _ := trivial
  body_stmts h := h.2.2
  runs_block _ := trivial
  block_block _ := rfl
  expr_block h := h
  expr_parts h := h.parts
  stmt_expressions h := h.expressions
  stmt_branches h := h.branches
  stmt_inner h := h.inner
  stmt_loopBody h := h.loopBody
  stmt_handlerNames h name hname := h.allowed.1 name (by simp [Stmt.names, hname])
  stmt_break h := h.allowed.2.2
  stmt_continue h := h.allowed.2.2
  stmt_return h := h.allowed.2.2
  breaks_block h := h
  returns_block h := h
  returns_loop h := h

/-- Where code runs: its scope, and the scopes that there were when it started. -/
structure Standpoint where
  before : Scopes
  scope : ScopeId

namespace Standpoint

/-- Code inside the constructs `k` may run: the machine is sound, and the current scope serves the
code. -/
structure Suits (k : Enclosure) (p : Standpoint) (m : Machine) : Prop where
  current : m.current = p.scope
  inRange : p.scope < m.scopes.all.size
  sound : m.Sound
  kept : p.before.Kept (fun _ _ => True) m.scopes
  serves : m.scopes.Serves k p.scope

namespace Suits

variable {k l : Enclosure} {p q : Standpoint} {m n : Machine}

/-- When code elsewhere has ended, the code here may go on. -/
theorem leave
    (hm : p.Suits k m)
    (hn : q.Suits l n)
    (hbefore : q.before = m.scopes) :
    p.Suits k (n.leave m.current) where
  current := hm.current
  inRange := Nat.lt_of_lt_of_le hm.inRange (hbefore ▸ hn.kept).size_le
  sound := ⟨hn.sound.scopes, hn.sound.functions, hn.sound.methods⟩
  kept := hm.kept.trans (hbefore ▸ hn.kept)
  serves := hm.serves.of_kept (hbefore ▸ hn.kept) hm.inRange

/-- Only scopes have changed, and none was made current. -/
theorem of_scopes
    (hm : p.Suits k m)
    (hkept : m.scopes.Kept (fun _ _ => True) n.scopes)
    (hscopes : n.scopes.Sound)
    (hcurrent : n.current = m.current)
    (hfunctions : n.functions = m.functions)
    (hmethods : n.methods = m.methods) :
    p.Suits k n where
  current := hcurrent.trans hm.current
  inRange := Nat.lt_of_lt_of_le hm.inRange hkept.size_le
  sound := hm.sound.of_scopes hkept hscopes hfunctions hmethods
  kept := hm.kept.trans hkept
  serves := hm.serves.of_kept hkept hm.inRange

/-- Making an object that is no scope. -/
theorem of_sound
    (hm : p.Suits k m)
    (hn : n.Sound)
    (hscopes : n.scopes = m.scopes)
    (hcurrent : n.current = m.current) :
    p.Suits k n where
  current := hcurrent.trans hm.current
  inRange := hscopes ▸ hm.inRange
  sound := hn
  kept := hscopes ▸ hm.kept
  serves := hscopes ▸ hm.serves

end Suits

section Enter

variable {k : Enclosure} {m : Machine} {parent : ScopeId}

/-- Inside a new scope with parameters or the like. -/
theorem suits_enter
    {before : Scopes} {bindings : List Binding}
    (hm : m.Sound)
    (hkept : before.Kept (fun _ _ => True) m.scopes)
    (hparent : parent < m.scopes.all.size)
    (hserves : m.scopes.Serves k parent)
    (hbindings : ∀ b ∈ bindings, ¬IsReserved b.name) :
    Suits k ⟨before, m.scopes.all.size⟩ (m.enter parent bindings) := by
  rw [Machine.enter_eq]
  have hcreate : m.scopes.Kept (fun _ _ => True) (m.scopes.create _).1 :=
    .create m.scopes ⟨some parent, Scope.bound bindings⟩
  refine ⟨rfl, by simp, hm.of_scopes hcreate ?_ rfl rfl, hkept.trans hcreate, ?_⟩
  · refine hm.scopes.create (by simpa using hparent) fun b hb => ?_
    exact Binding.proper_of_not_isReserved (hbindings b (Scope.mem_bound hb))
  · exact hserves.create rfl hparent

/-- The scope that binds `this` for the body of a method. -/
theorem sound_bindThis
    {hasSuperclass : Bool}
    (receiver : InstanceId)
    (hm : m.Sound)
    (hparent : parent < m.scopes.all.size)
    (hsuper : hasSuperclass = true → m.scopes.Binds parent "super") :
    (m.bindThis parent receiver).Sound ∧
      (m.bindThis parent receiver).scopes.Serves (k.enterClass hasSuperclass).enterFunction
        m.scopes.all.size := by
  rw [Machine.bindThis_eq]
  have hkept : m.scopes.Kept (fun _ _ => False) (m.scopes.create _).1 :=
    .create m.scopes ⟨some parent, [⟨"this", .instance receiver, false⟩]⟩
  refine ⟨hm.of_scopes hkept ?_ rfl rfl, ?_, ?_⟩
  · refine hm.scopes.create (by simpa using hparent) fun b hb => ?_
    rw [List.mem_singleton.mp hb]
    exact ⟨fun _ => ⟨receiver, rfl⟩, fun h => by simp at h⟩
  · exact fun _ => Scopes.binds_create_self (.inl rfl)
  · intro h
    exact Scopes.binds_create_self (.inr ⟨parent, rfl, hparent, hsuper (Option.some.inj h)⟩)

end Enter

/-- Machines stay sound. -/
def invariance : Invariance Enclosure.discipline where
  Place := Standpoint
  scope p := p.scope
  holds k p m := p.Suits k m
  beside p q := q.before = p.before

theorem laws : invariance.Laws where
  beside_refl _ := rfl
  beside_trans h h' := h'.trans h
  current _ h := h.current
  quiet h hq := h.of_sound (h.sound.of_quiet hq) hq.scopes hq.current
  loop :=
    ⟨fun h => ⟨h.current, h.inRange, h.sound, h.kept, h.serves.this, h.serves.super⟩,
      fun h => ⟨h.current, h.inRange, h.sound, h.kept, h.serves.this, h.serves.super⟩⟩
  enter {k p m bindings} _ hm hb := by
    rw [hm.current]
    refine ⟨_, suits_enter hm.sound (.refl _) hm.inRange hm.serves hb, fun r n hr hn => ?_⟩
    exact hm.leave hn hr
  copy {k p m} _ hm := by
    have hcreate : m.scopes.Kept (fun _ _ => True) (m.scopes.copy m.current).1 := .create _ _
    refine ⟨⟨p.before, m.scopes.all.size⟩, rfl, rfl, ?_, ?_, hm.kept.trans hcreate, ?_⟩
    · exact Nat.lt_of_lt_of_eq (Nat.lt_succ_self _) (Scopes.size_create _ _).symm
    · refine hm.sound.of_scopes hcreate ?_ rfl rfl
      refine hm.sound.scopes.create (fun parent hparent => ?_) fun b hb =>
        hm.sound.scopes.proper _ b hb
      rw [hm.current] at hparent
      exact Nat.lt_trans (hm.sound.scopes.ordered _ parent hparent) hm.inRange
    · exact (hm.current.symm ▸ hm.serves).copy (hm.current.symm ▸ hm.inRange)
  call {k p m} frame hm :=
    ⟨p, hm.of_sound ⟨hm.sound.scopes, hm.sound.functions, hm.sound.methods⟩ rfl rfl,
      fun n hn => hn.of_sound ⟨hn.sound.scopes, hn.sound.functions, hn.sound.methods⟩ rfl rfl⟩
  closure {k p m id name params body scope} arguments hm hf := by
    obtain ⟨l, hparams, hbody, hscope, hserves⟩ := hm.sound.functions _ (Array.mem_of_getElem? hf)
    refine ⟨l.enterFunction, _, ⟨rfl, rfl, hbody⟩, suits_enter hm.sound (.refl _) hscope
      ⟨hserves.this, hserves.super⟩ fun b hb => not_isReserved_of_mem_parameterBindings hparams hb,
      fun r n hr hn => hm.leave hn hr⟩
  methodBody {k p m id f} receiver arguments hm hf := by
    obtain ⟨l, hasSuperclass, hparams, hbody, hscope, hsuper⟩ :=
      hm.sound.methods f (Array.mem_of_getElem? hf)
    obtain ⟨hsound, hserves⟩ := sound_bindThis (k := l) receiver hm.sound hscope hsuper
    have hkept : m.scopes.Kept (fun _ _ => True) (m.bindThis f.scope receiver).scopes := by
      rw [Machine.bindThis_eq]
      exact .create _ _
    refine ⟨(l.enterClass hasSuperclass).enterFunction, _, ⟨rfl, rfl, hbody⟩,
      suits_enter hsound hkept ?_ hserves
        fun b hb => not_isReserved_of_mem_parameterBindings hparams hb,
      fun r n hr hn => hm.leave hn hr⟩
    rw [Machine.bindThis_eq]
    simp [Machine.newScope, Scopes.create]
  assign {k p m name e span} v he hm := by
    have hname : ¬IsReserved name := he.allowed.1 name (by simp [Expr.names])
    exact hm.of_scopes (.assign _ _ _ v) (hm.sound.scopes.assign hname _ v) rfl rfl rfl
  newClosure {k p m params body span} he hm := by
    refine hm.of_sound (hm.sound.newFunction ⟨k, he.allowed.1, he.body, ?_, ?_⟩) rfl rfl
    · exact hm.current.symm ▸ hm.inRange
    · exact hm.current.symm ▸ hm.serves
  newFunction {k p m d} hs hm := by
    refine hm.of_sound (hm.sound.newFunction ⟨k, fun name hname => ?_, ?_, ?_, ?_⟩) rfl rfl
    · exact hs.allowed.1 name (by simp [Stmt.names, Stmt.functions, hname])
    · exact hs.functions d (by simp [Stmt.functions])
    · exact hm.current.symm ▸ hm.inRange
    · exact hm.current.symm ▸ hm.serves
  define {k p m s name} v isConst hs hname hm := by
    have hreserved : ¬IsReserved name := hs.allowed.1 name (by simp_all [Stmt.names])
    refine hm.of_scopes (.define _ trivial) ?_ rfl rfl rfl
    exact hm.sound.scopes.define (Binding.proper_of_not_isReserved hreserved) _

theorem keptByClassSteps : invariance.KeptByClassSteps where
  bindSuper {k p m name parent methods span} superclass _ hm := by
    rw [Machine.bindSuper_eq]
    refine hm.of_scopes (.create _ _) ?_ rfl rfl rfl
    refine hm.sound.scopes.create (by simpa using hm.current.symm ▸ hm.inRange) fun b hb => ?_
    rw [List.mem_singleton.mp hb]
    exact ⟨fun h => by simp at h, fun _ => ⟨superclass, rfl⟩⟩
  newMethod {k p m name superclass methods span d scope} owner isInitializer hs hd hscope hm := by
    have hmethod (hrange : scope < m.scopes.all.size)
        (hsuper : superclass.isSome = true → m.scopes.Binds scope "super") :
        MethodObject.Sound m.scopes ⟨d.name, d.params, d.body, scope, owner, isInitializer⟩ := by
      refine ⟨k, superclass.isSome, fun n hn => ?_, hs.methods d hd, hrange, hsuper⟩
      refine hs.allowed.1 n ?_
      simp only [Stmt.names, List.mem_append, List.mem_flatMap]
      exact .inr ⟨d, .inr hd, hn⟩
    refine hm.of_sound (hm.sound.newMethod ?_) rfl rfl
    cases superclass with
    | none =>
        refine hmethod ?_ (by simp)
        rw [show scope = m.current from hscope, hm.current]
        exact hm.inRange
    | some parent =>
        obtain ⟨c, hget⟩ := hscope
        refine hmethod (Nat.lt_of_not_le fun hsize => ?_) fun _ => ?_
        · rw [Scopes.get_of_size_le hsize] at hget
          cases hget
        · exact Scopes.binds_of_find? (by simp [hget, Scope.find?])
  newClass c _ hm := hm.of_sound ⟨hm.sound.scopes, hm.sound.functions, hm.sound.methods⟩ rfl rfl

theorem lawful : invariance.Lawful :=
  ⟨laws, laws.defineClass keptByClassSteps⟩

end Standpoint

end Lox
