import Lox.Proofs.Classes.Home
import Lox.Proofs.Invariance

/-!
# Running code at home

Code that stands in the body of a method runs only in scopes that belong to a call of a method with
this body, and machines stay housed. Both are kept by every step, the declaration of a class as a
whole included: its methods are at home as soon as the class exists.
-/

namespace Lox

/-- Only code with a home runs, or code outside of all classes. -/
abbrev Home.discipline : Discipline where
  Setting := Option Home
  runs _ := True
  expr h e := e.BelongsTo h
  stmt h s := s.BelongsTo h
  body h statements := ∀ s ∈ statements, s.BelongsTo h
  binds _ name := ¬IsReserved name
  breaks _ := True
  returns _ := True
  block h := h
  loop h := h
  runs_expr _ := trivial
  runs_stmt _ := trivial
  body_stmts h := h
  runs_block _ := trivial
  block_block _ := rfl
  expr_block h := h
  expr_parts h := h.parts
  stmt_expressions h := h.expressions
  stmt_branches h := h.branches
  stmt_inner h := h.inner
  stmt_loopBody h := h.loopBody
  stmt_handlerNames h name hname := h.names name (by simp [Stmt.names, hname])
  stmt_break _ := trivial
  stmt_continue _ := trivial
  stmt_return _ := trivial
  breaks_block h := h
  returns_block h := h
  returns_loop h := h

/-- Where code runs: its scope, and the machine on which it started. -/
structure Residence where
  before : Machine
  scope : ScopeId

namespace Residence

/-- Code with this home may run: the machine is housed, and the current scope hosts the code. -/
structure Shelters (h : Option Home) (p : Residence) (m : Machine) : Prop where
  current : m.current = p.scope
  inRange : p.scope < m.scopes.all.size
  housed : m.Housed
  evolved : p.before.Evolves m
  hosts : m.Hosts h p.scope

namespace Shelters

variable {h l : Option Home} {p q : Residence} {m n : Machine}

/-- The machine has changed, but not the current scope. -/
theorem of_evolves
    (hm : p.Shelters h m)
    (hn : m.Evolves n)
    (hhoused : n.Housed)
    (hcurrent : n.current = m.current) :
    p.Shelters h n where
  current := hcurrent.trans hm.current
  inRange := Nat.lt_of_lt_of_le hm.inRange hn.scopes.size_le
  housed := hhoused
  evolved := hm.evolved.trans hn
  hosts := hm.hosts.mono hn hm.inRange

/-- When code elsewhere has ended, the code here may go on. -/
theorem leave
    (hm : p.Shelters h m)
    (hn : q.Shelters l n)
    (hbefore : q.before = m) :
    p.Shelters h (n.leave m.current) := by
  have hleave : n.Evolves (n.leave m.current) := .of_eq rfl rfl rfl
  have hn' : m.Evolves n := hbefore ▸ hn.evolved
  exact hm.of_evolves (hn'.trans hleave) (hn.housed.of_scopes hleave rfl rfl rfl) rfl

theorem current_inRange (hm : p.Shelters h m) : m.current < m.scopes.all.size :=
  hm.current ▸ hm.inRange

theorem current_hosts (hm : p.Shelters h m) : m.Hosts h m.current :=
  hm.current ▸ hm.hosts

end Shelters

section Enter

variable {h : Option Home} {m before : Machine} {parent : ScopeId} {bindings : List Binding}

/-- Inside a new scope that hosts the code. -/
theorem shelters_enter
    (hm : m.Housed)
    (hbefore : before.Evolves m)
    (hosts : (m.enter parent bindings).Hosts h m.scopes.all.size) :
    Shelters h ⟨before, m.scopes.all.size⟩ (m.enter parent bindings) := by
  have hn := Machine.Evolves.enter m parent bindings
  refine ⟨?_, ?_, hm.of_scopes hn ?_ ?_ ?_, hbefore.trans hn, hosts⟩
  all_goals simp [Machine.enter_eq]

/-- A new scope hosts what the one around it hosts. -/
theorem hosts_enter
    (hosts : m.Hosts h parent)
    (hparent : parent < m.scopes.all.size)
    (hbindings : ∀ b ∈ bindings, ¬IsReserved b.name) :
    (m.enter parent bindings).Hosts h m.scopes.all.size := by
  intro home hhome
  obtain ⟨f, hf, c, receiver, howner, heq, hcall⟩ := hosts home hhome
  rw [Machine.enter_eq]
  exact ⟨f, hf, c, receiver, howner, heq, hcall.create hparent hbindings⟩

/-- The scope of its parameters hosts the body of a method that is called. -/
theorem hosts_call
    {f : MethodObject} {c : ClassObject}
    (hf : f ∈ m.methods)
    (hc : m.Declares f c)
    (receiver : InstanceId)
    (arguments : List Value) :
    let n := m.bindThis f.scope receiver
    (n.enter (m.newScope f.scope).1 (parameterBindings f.params arguments)).Hosts
      (some ⟨f.body, c.superclass.isSome⟩) n.scopes.all.size := by
  intro n home hhome
  obtain rfl := Option.mem_some_iff.mp hhome
  have hcall : n.scopes.IsCall f.scope receiver m.scopes.all.size := by
    simp only [n, Machine.bindThis_eq]
    exact .create receiver hc.inRange
  have hlt : m.scopes.all.size < n.scopes.all.size := by simp [n, Machine.bindThis_eq]
  have hbindings (b : Binding) (hb : b ∈ parameterBindings f.params arguments) :
      ¬IsReserved b.name :=
    not_isReserved_of_mem_parameterBindings hc.params hb
  rw [Machine.enter_eq]
  refine ⟨f, ?_, c, receiver, ?_, rfl, .parameters hcall hlt hbindings⟩
  · simpa [n, Machine.bindThis_eq] using hf
  · simpa [n, Machine.bindThis_eq] using hc.owner

end Enter

section Steps

variable {h : Option Home} {p : Residence} {m : Machine}

/-- A function that is made in the current scope. -/
theorem Shelters.newFunction
    (hm : p.Shelters h m)
    (name : String)
    {params : List String} {body : List Stmt}
    (hparams : ∀ name ∈ params, ¬IsReserved name)
    (hbody : ∀ s ∈ body, s.BelongsTo h) :
    p.Shelters h (m.newFunction (.closure name params body m.current)).2 :=
  hm.of_evolves (.of_eq rfl rfl rfl)
    (hm.housed.newFunction ⟨h, hparams, hbody, hm.current_inRange, hm.current_hosts⟩) rfl

/-- A change of the scopes that is none to `this` and `super`. -/
theorem Shelters.of_scopes
    (hm : p.Shelters h m)
    {scopes : Scopes}
    (hscopes : m.scopes.Extend scopes) :
    p.Shelters h { m with scopes := scopes } := by
  have hn : m.Evolves { m with scopes := scopes } := ⟨hscopes, .of_eq rfl rfl⟩
  exact hm.of_evolves hn (hm.housed.of_scopes hn rfl rfl rfl) rfl

end Steps

section Class

variable {m : Machine} {name : String} {parent : Option ClassId}

theorem extend_scopesForClass (hname : ¬IsReserved name) :
    m.scopes.Extend (m.scopesForClass name parent).1 := by
  have hdefine : m.scopes.Extend (m.scopes.define m.current ⟨name, .nil, false⟩) :=
    .define _ _ hname
  cases parent with
  | none => exact hdefine
  | some parent => exact hdefine.trans (.create _ _)

/-- The methods of a subclass close over a scope that is made for them. -/
theorem size_le_scopesForClass (hparent : parent.isSome = true) :
    m.scopes.all.size ≤ (m.scopesForClass name parent).2 := by
  obtain ⟨superclass, rfl⟩ := Option.isSome_iff_exists.mp hparent
  exact Nat.le_of_eq (Scopes.size_define _ _ _).symm

theorem evolves_withClass
    (hname : ¬IsReserved name)
    (ds : List FunctionDecl)
    (table : List (String × MethodId)) :
    m.Evolves (m.withClass name parent ds table) where
  scopes := (extend_scopesForClass hname).trans (.define _ _ hname)
  grows := by
    refine ⟨fun hc => getElem?_push_of_some _ hc, fun {id f} hf => ?_⟩
    obtain ⟨hlt, -⟩ := Array.getElem?_eq_some_iff.mp hf
    rw [← hf]
    exact Array.getElem?_append_left hlt

/-- A method of the new class. -/
theorem declares_withClass
    {superclass : Option (String × Span)} {ds : List FunctionDecl} {span : Span}
    {h : Option Home} {d : FunctionDecl}
    (hs : (Stmt.classDecl name superclass ds span).BelongsTo h)
    (hparent : parent.isSome = superclass.isSome)
    (hcurrent : m.current < m.scopes.all.size)
    (table : List (String × MethodId))
    (hd : d ∈ ds) :
    (m.withClass name parent ds table).Declares
      (d.method m.classes.size (m.scopesForClass name parent).2) ⟨name, parent, table⟩ := by
  have hname : ¬IsReserved name := hs.names name (by simp [Stmt.names, Stmt.declared?])
  have hrange : (m.scopesForClass name parent).2 < (m.scopesForClass name parent).1.all.size :=
    Scopes.inRange_forClass parent (by simpa using hcurrent)
  have hlast : (m.scopesForClass name parent).1.Extend
      (m.withClass name parent ds table).scopes :=
    .define _ _ hname
  constructor
  case owner => exact Array.getElem?_push_size
  case params =>
    intro x hx
    refine hs.names x ?_
    simp only [Stmt.names, List.mem_append, List.mem_flatMap]
    exact .inr ⟨d, .inr hd, hx⟩
  case body =>
    simp only [hparent]
    exact hs.methods d hd
  case inRange => exact Nat.lt_of_lt_of_le hrange hlast.size_le
  case super =>
    rintro superclass' rfl
    exact (hlast.reserved _ hrange _ (.inr rfl)).trans (Scopes.find?_super_forClass superclass')

/-- The declaration of a class: its methods are at home as soon as the class exists. -/
theorem Shelters.defineClass
    {h : Option Home} {p : Residence}
    {superclass : Option (String × Span)} {ds : List FunctionDecl} {span : Span}
    (hm : p.Shelters h m)
    (hs : (Stmt.classDecl name superclass ds span).BelongsTo h)
    (hparent : parent.isSome = superclass.isSome) :
    p.Shelters h (Eval.defineClass name parent ds m).machine := by
  obtain ⟨table, heq, htable⟩ := Eval.defineClass_eq name parent ds m
  have hname : ¬IsReserved name := hs.names name (by simp [Stmt.names, Stmt.declared?])
  have hn : m.Evolves (m.withClass name parent ds table) := evolves_withClass hname ds table
  rw [heq]
  exact hm.of_evolves hn (hm.housed.declare hn rfl rfl rfl
    (fun d hd => declares_withClass hs hparent hm.current_inRange table hd)
    size_le_scopesForClass htable) rfl

end Class

/-- Code stays at home. -/
def invariance : Invariance Home.discipline where
  Place := Residence
  scope p := p.scope
  holds h p m := p.Shelters h m
  beside p q := q.before = p.before

theorem laws : invariance.Laws where
  beside_refl _ := rfl
  beside_trans h h' := h'.trans h
  current _ hm := hm.current
  quiet hm hq := hm.of_evolves (.of_eq hq.scopes hq.classes hq.methods) (hm.housed.of_quiet hq)
    hq.current
  loop := Iff.rfl
  enter {h p m bindings} _ hm hb :=
    ⟨_, shelters_enter hm.housed (.refl m) (hosts_enter hm.current_hosts hm.current_inRange hb),
      fun _ _ hr hn => hm.leave hn hr⟩
  copy {h p m} _ hm := by
    have hn : m.Evolves (m.enterCopy m.current) := ⟨.create _ _, .of_eq rfl rfl⟩
    refine ⟨⟨p.before, m.scopes.all.size⟩, rfl, rfl, ?_, hm.housed.of_scopes hn rfl rfl rfl,
      hm.evolved.trans hn, ?_⟩
    · exact Nat.lt_of_lt_of_eq (Nat.lt_succ_self _) (Scopes.size_create _ _).symm
    · intro home hhome
      obtain ⟨f, hf, c, receiver, howner, heq, hcall⟩ := hm.current_hosts home hhome
      exact ⟨f, hf, c, receiver, howner, heq, hcall.copy hm.current_inRange⟩
  call {h p m} frame hm := by
    have hframes (n n' : Machine) (hn : p.Shelters h n)
        (heq : n' = { n with frames := n'.frames }) : p.Shelters h n' := by
      rw [heq]
      have hevolves : n.Evolves { n with frames := n'.frames } := .of_eq rfl rfl rfl
      exact hn.of_evolves hevolves (hn.housed.of_scopes hevolves rfl rfl rfl) rfl
    exact ⟨p, hframes m _ hm rfl, fun n hn => hframes n _ hn rfl⟩
  closure {h p m id name params body scope} arguments hm hf := by
    obtain ⟨l, hparams, hbody, hscope, hosts⟩ :=
      hm.housed.functions _ (Array.mem_of_getElem? hf)
    exact ⟨l, _, hbody, shelters_enter hm.housed (.refl m) (hosts_enter hosts hscope
      fun b hb => not_isReserved_of_mem_parameterBindings hparams hb),
      fun _ _ hr hn => hm.leave hn hr⟩
  methodBody {h p m id f} receiver arguments hm hf := by
    have hmem : f ∈ m.methods := Array.mem_of_getElem? hf
    obtain ⟨c, hc⟩ := hm.housed.methods f hmem
    have hn : m.Evolves (m.bindThis f.scope receiver) := by
      rw [Machine.bindThis_eq]
      exact ⟨.create _ _, .of_eq rfl rfl⟩
    have hhoused : (m.bindThis f.scope receiver).Housed := by
      refine hm.housed.of_scopes hn ?_ ?_ ?_
      all_goals rw [Machine.bindThis_eq]
    exact ⟨_, _, hc.body, shelters_enter hhoused hn (hosts_call hmem hc receiver arguments),
      fun _ _ hr hn => hm.leave hn hr⟩
  assign {h p m name e span} v he hm :=
    hm.of_scopes (.assign _ _ (he.names name (by simp [Expr.names])) v)
  newClosure he hm := hm.newFunction "lambda" he.names he.body
  newFunction {h p m d} hs hm := by
    refine hm.newFunction d.name (fun x hx => ?_) (hs.functions d (by simp [Stmt.functions]))
    exact hs.names x (by simp [Stmt.names, Stmt.functions, hx])
  define {h p m s name} v isConst hs hname hm := by
    have hreserved : ¬IsReserved name := hs.names name (by simp_all [Stmt.names])
    exact hm.of_scopes (.define _ _ hreserved)

theorem lawful : invariance.Lawful :=
  ⟨laws, fun hs hparent hm => hm.defineClass hs hparent⟩

end Residence

end Lox
