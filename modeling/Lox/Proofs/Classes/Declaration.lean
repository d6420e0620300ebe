import Lox.Proofs.Collection
import Lox.Proofs.Entering

/-!
# What the declaration of a class makes

Once its superclass is known, the declaration of a class always succeeds. `Eval.defineClass_eq`
writes out the machine that it leaves behind: the methods, which close over the current scope or
over one that binds `super`, the class, and its name.
-/

namespace Lox

/-- The method that is declared in a class, with the scope that it closes over. -/
def FunctionDecl.method (d : FunctionDecl) (owner : ClassId) (scope : ScopeId) : MethodObject :=
  ⟨d.name, d.params, d.body, scope, owner, d.name == "init"⟩

/-- The scopes with the one that the methods of a class close over. -/
def Scopes.forClass (scopes : Scopes) (current : ScopeId) : Option ClassId → Scopes × ScopeId
  | none => (scopes, current)
  | some parent => scopes.create ⟨some current, [⟨"super", .class parent, false⟩]⟩

namespace Scopes

variable {scopes : Scopes} {current : ScopeId}

theorem inRange_forClass (parent : Option ClassId) (hcurrent : current < scopes.all.size) :
    (scopes.forClass current parent).2 < (scopes.forClass current parent).1.all.size := by
  cases parent with
  | none => exact hcurrent
  | some parent => simp [forClass, create]

/-- The methods of a subclass close over a scope that binds `super`. -/
theorem find?_super_forClass (parent : ClassId) :
    let found := scopes.forClass current (some parent)
    (found.1.get found.2).find? "super" = some ⟨"super", .class parent, false⟩ := by
  intro found
  have hget : found.1.get found.2 = ⟨some current, [⟨"super", .class parent, false⟩]⟩ :=
    get_create_self scopes _
  rw [hget]
  rfl

end Scopes

namespace Machine

/-- The scopes when the methods of a class are made: the name of the class is already bound. -/
def scopesForClass (m : Machine) (name : String) (parent : Option ClassId) : Scopes × ScopeId :=
  (m.scopes.define m.current ⟨name, .nil, false⟩).forClass m.current parent

/-- The machine with a new class. -/
def withClass
    (m : Machine)
    (name : String)
    (parent : Option ClassId)
    (ds : List FunctionDecl)
    (table : List (String × MethodId)) :
    Machine :=
  let (scopes, scope) := m.scopesForClass name parent
  { m with
    scopes := scopes.define m.current ⟨name, .class m.classes.size, false⟩
    methods := m.methods ++ (ds.map (·.method m.classes.size scope)).toArray
    classes := m.classes.push ⟨name, parent, table⟩ }

end Machine

/-- All entries of the table of a class are methods of this class, under their names. -/
def ListsOwn (methods : Array MethodObject) (owner : ClassId) (table : List (String × MethodId)) :
    Prop :=
  ∀ entry ∈ table, ∃ f, methods[entry.2]? = some f ∧ f.owner = owner ∧ f.name = entry.1

namespace ListsOwn

variable {methods : Array MethodObject} {owner : ClassId} {table : List (String × MethodId)}

theorem mono
    {later : Array MethodObject}
    (h : ListsOwn methods owner table)
    (hlater : ∀ {id : MethodId} {f : MethodObject}, methods[id]? = some f → later[id]? = some f) :
    ListsOwn later owner table := by
  intro entry hentry
  obtain ⟨f, hf, howner⟩ := h entry hentry
  exact ⟨f, hlater hf, howner⟩

/-- A method that is added to the table of its class. -/
theorem push
    (h : ListsOwn methods owner table)
    (d : FunctionDecl)
    (scope : ScopeId) :
    ListsOwn (methods.push (d.method owner scope)) owner
      (Eval.putNamed d.name methods.size table) := by
  intro entry hentry
  rcases Eval.mem_putNamed hentry with rfl | hentry
  · exact ⟨_, Array.getElem?_push_size, rfl, rfl⟩
  · obtain ⟨f, hf, howner⟩ := h entry hentry
    obtain ⟨hlt, -⟩ := Array.getElem?_eq_some_iff.mp hf
    exact ⟨f, by rw [Array.getElem?_push_lt hlt, ← hf, Array.getElem?_eq_getElem hlt], howner⟩

end ListsOwn

namespace Eval

theorem classScope_eq (parent : Option ClassId) (m : Machine) :
    classScope parent m =
      .done (m.scopes.forClass m.current parent).2
        { m with scopes := (m.scopes.forClass m.current parent).1 } := by
  cases parent with
  | none => rfl
  | some parent => exact congrArg (Outcome.done m.scopes.all.size) (m.bindSuper_eq m.current parent)

theorem makeMethods_eq
    (owner : ClassId)
    (scope : ScopeId)
    (ds : List FunctionDecl)
    {table : List (String × MethodId)}
    {m : Machine}
    (htable : ListsOwn m.methods owner table) :
    let methods := m.methods ++ (ds.map (·.method owner scope)).toArray
    ∃ table', makeMethods owner scope ds table m = .done table' { m with methods := methods } ∧
      ListsOwn methods owner table' := by
  induction ds generalizing table m with
  | nil => exact ⟨table, by simp [makeMethods]; rfl, by simpa using htable⟩
  | cons d rest ih =>
      obtain ⟨table', hrest, htable'⟩ :=
        ih (m := (m.newMethod (d.method owner scope)).2) (htable.push d scope)
      have hmethods : m.methods.push (d.method owner scope) ++
            (rest.map (·.method owner scope)).toArray =
          m.methods ++ ((d :: rest).map (·.method owner scope)).toArray := by
        simp
      refine ⟨table', ?_, hmethods ▸ htable'⟩
      rw [← hmethods]
      exact hrest

/-- **The declaration of a class**, written out. -/
theorem defineClass_eq
    (name : String)
    (parent : Option ClassId)
    (ds : List FunctionDecl)
    (m : Machine) :
    ∃ table, defineClass name parent ds m = .done .normal (m.withClass name parent ds table) ∧
      ListsOwn (m.withClass name parent ds table).methods m.classes.size table := by
  let found := m.scopesForClass name parent
  have hnone : ListsOwn m.methods m.classes.size [] := by simp [ListsOwn]
  obtain ⟨table, hmake, htable⟩ := makeMethods_eq m.classes.size found.2 ds
    (m := { m with scopes := found.1 }) hnone
  have hscope : classScope parent (m.define m.current ⟨name, .nil, false⟩) =
      .done found.2 { m with scopes := found.1 } :=
    classScope_eq parent _
  refine ⟨table, ?_, htable⟩
  simp only [defineClass, bind_apply, define, update, ask, make, Outcome.andThen, hscope, hmake]
  rfl

end Eval

end Lox
