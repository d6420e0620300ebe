import Lox.Proofs.Classes.Residence
import Lox.Proofs.Journal.Chronicled
import Lox.Proofs.Journal.Saga

/-!
# Sagas of runs

Sagas are a narrative of code that is at home where it runs: steps are operations that run no code
and set no field, and there are sagas of blocks, loops and declarations. Another saga is that of the
entering of a call, and an assignment to a field comes after its instance and its value. By induction
on the room, the answers of all recorders have sagas (`Recorder.told_ofRoom`).
-/

namespace Lox

/-- Code with this home may run in the current scope. -/
structure Machine.Lodges (h : Option Home) (m : Machine) : Prop where
  ranged : m.IsRanged
  housed : m.Housed
  hosts : m.Hosts h m.current

variable {limits : Limits} {h : Option Home} {m n : Machine}

section Lodging

namespace Machine.Lodges

theorem of_shelters {p : Residence} (hm : p.Shelters h m) : m.Lodges h :=
  ⟨hm.current_inRange, hm.housed, hm.current_hosts⟩

theorem shelters (hm : m.Lodges h) : Residence.Shelters h ⟨m, m.current⟩ m :=
  ⟨rfl, hm.ranged, hm.housed, .refl m, hm.hosts⟩

/-- Code outside of all classes may run on later machines. -/
theorem later
    (hm : m.Lodges h)
    (hn : m.Continues n)
    (hcurrent : n.current = m.current) :
    n.Lodges none := by
  refine ⟨?_, hn.housed hm.housed, fun home hhome => absurd hhome (by simp)⟩
  unfold IsRanged
  rw [hcurrent]
  exact Nat.lt_of_lt_of_le hm.ranged hn.evolves.scopes.size_le

theorem enter
    (hm : m.Lodges h)
    {bindings : List Binding}
    (hbindings : ∀ b ∈ bindings, ¬IsReserved b.name) :
    (m.enter m.current bindings).Lodges h :=
  of_shelters (Residence.shelters_enter hm.housed (.refl m)
    (Residence.hosts_enter hm.hosts hm.ranged hbindings))

/-- The body of a function is at home in the scope of its parameters. -/
theorem closure
    (hm : m.Lodges h)
    {id : FunctionId}
    {name : String}
    {params : List String}
    {body : List Stmt}
    {scope : ScopeId}
    (arguments : List Value)
    (hf : m.functions[id]? = some (.closure name params body scope)) :
    ∃ l, (∀ s ∈ body, s.BelongsTo l) ∧
      (m.enter scope (parameterBindings params arguments)).Lodges l := by
  obtain ⟨l, q, hbody, hq, -⟩ := Residence.laws.closure arguments hm.shelters hf
  exact ⟨l, hbody, of_shelters hq⟩

/-- The body of a method is at home in the scope of its parameters. -/
theorem method
    (hm : m.Lodges h)
    {id : MethodId}
    {f : MethodObject}
    (receiver : InstanceId)
    (arguments : List Value)
    (hf : m.methods[id]? = some f) :
    ∃ l, (∀ s ∈ f.body, s.BelongsTo l) ∧
      ((m.bindThis f.scope receiver).enter m.scopes.all.size
        (parameterBindings f.params arguments)).Lodges l := by
  obtain ⟨l, q, hbody, hq, -⟩ := Residence.laws.methodBody receiver arguments hm.shelters hf
  exact ⟨l, hbody, of_shelters hq⟩

end Machine.Lodges

/-- Code goes on where it is at home. -/
theorem Saga.lodges
    {entering : Bool}
    {journal : List Event}
    (hsaga : Saga limits entering m journal n)
    (hm : m.Lodges h) :
    n.Lodges h := by
  have hcontinues := hsaga.continues.1
  refine ⟨hsaga.isRanged hm.ranged, hcontinues.housed hm.housed, fun home hhome => ?_⟩
  obtain ⟨f, hf, c, receiver, howner, heq, hcall⟩ := hm.hosts home hhome
  have hgrows := hcontinues.evolves.grows
  refine ⟨f, hgrows.mem_methods hf, c, receiver, hgrows.classes howner, heq, ?_⟩
  cases entering with
  | false => exact (hsaga.inCall hm.ranged hcall).1
  | true =>
      rw [hsaga.current]
      exact hcall.extend hcontinues.evolves.scopes hm.ranged

end Lodging

section Proceeding

/-- The scope that binds `this` for a call is made. -/
theorem Machine.Proceeds.bindThis (m : Machine) (parent : ScopeId) (receiver : InstanceId) :
    m.Proceeds (m.bindThis parent receiver) := by
  rw [Machine.bindThis_eq]
  have hevolves : m.Evolves { m with scopes :=
      (m.scopes.create ⟨some parent, [⟨"this", .instance receiver, false⟩]⟩).1 } :=
    ⟨.create _ _, .of_eq rfl rfl⟩
  exact ⟨.of_eq rfl rfl rfl, hevolves, fun hm => hm.of_scopes hevolves rfl rfl rfl, rfl, rfl⟩

theorem Machine.Proceeds.of_shelters
    {p : Residence}
    (hretains : m.Retains n)
    (hp : p.before = m)
    (hn : p.Shelters h n)
    (hcurrent : n.current = m.current)
    (hframes : n.frames = m.frames) :
    m.Proceeds n :=
  ⟨hretains, hp ▸ hn.evolved, fun _ => hn.housed, hcurrent, hframes⟩

/-- A change of the scopes that is none to `this` and `super`. -/
theorem Machine.Proceeds.of_scopes {scopes : Scopes} (hscopes : m.scopes.Extend scopes) :
    m.Proceeds { m with scopes := scopes } := by
  have hevolves : m.Evolves { m with scopes := scopes } := ⟨hscopes, .of_eq rfl rfl⟩
  exact ⟨.of_eq rfl rfl rfl, hevolves, fun hm => hm.of_scopes hevolves rfl rfl rfl, rfl, rfl⟩

end Proceeding

section Narrative

/-- Sagas as a narrative, of the entering of calls or of code with a home. -/
def Narrative.ofSagas (limits : Limits) (entering : Bool) (h : Option Home) : Narrative where
  admits := Machine.Lodges h
  step := Machine.Proceeds
  tells := Saga limits entering

instance (limits : Limits) (entering : Bool) (h : Option Home) :
    (Narrative.ofSagas limits entering h).Lawful where
  toOperating := inferInstanceAs (Eval.Operating Machine.Proceeds)
  told := .step
  note _ := .note _
  append := .append
  admits_later := Saga.lodges

instance (limits : Limits) : Narration Home.discipline (Narrative.ofSagas limits false) where
  enter hbindings hm := Machine.Lodges.enter hm hbindings
  block hbindings h := .block hbindings h
  copy _ := .copy
  loop _ := rfl
  newClosure he hm :=
    .of_shelters (.newFunction _ _) rfl (Residence.laws.newClosure he hm.shelters) rfl rfl
  newFunction hs hm :=
    .of_shelters (.newFunction _ _) rfl (Residence.laws.newFunction hs hm.shelters) rfl rfl
  define v isConst hs hname hm :=
    .of_shelters (.of_eq rfl rfl rfl) rfl
      (Residence.laws.define v isConst hs hname hm.shelters) rfl rfl
  defineClass {k m name superclass methods span parent} hs hparent hm := by
    obtain ⟨table, heq, -⟩ := Eval.defineClass_eq name parent methods m
    refine .of_shelters ((Eval.Elementary.defineClass name parent methods).steps m) rfl
      (hm.shelters.defineClass hs hparent) ?_ ?_
    all_goals rw [heq]; rfl

end Narrative

namespace Recorded.Entering

variable {α : Type} {c : Recorded α}

/-- The body of what is called, in the scope of its parameters. -/
theorem inNewScope
    {parent : ScopeId}
    {bindings : List Binding}
    (hlodges : (m.enter parent bindings).Lodges h)
    (hc : (Narrative.ofSagas limits false h).Covers (m.enter parent bindings) c) :
    (Narrative.ofSagas limits true none).Covers m (inNewScope parent bindings c) := by
  intro _
  simp only [Recorded.inNewScope, Recorded.around, Outcome.machine_onMachine]
  exact .body (hc hlodges)

theorem inCall
    {frame : Frame}
    (hc : (Narrative.ofSagas limits true none).Covers (m.pushFrame frame) c) :
    (Narrative.ofSagas limits false h).Covers m (inCall frame c) := by
  intro hm
  simp only [Recorded.inCall, Recorded.around, Outcome.machine_onMachine]
  exact .call (hc (hm.later (.pushFrame m frame) rfl))

variable {room : Nat}
variable (hR : (Recorder.ofRoom limits room).Narrates Home.discipline (.ofSagas limits false))
variable (arguments : List Value)

include hR

theorem runBody
    {params : List String}
    {body : List Stmt}
    {scope : ScopeId}
    (hbody : ∀ s ∈ body, s.BelongsTo h)
    (hlodges : (m.enter scope (parameterBindings params arguments)).Lodges h) :
    (Narrative.ofSagas limits true none).Covers m
      (Recorded.runBody (.ofRoom limits room) params body scope arguments) := by
  refine .bind (inNewScope hlodges (hR.run hbody _)) fun signal n => ?_
  cases signal with
  | thrown t => exact .own fun _ => Eval.Steps.callResult (.thrown t) n
  | normal | returned | broke | continued => exact .elementary (.pure _)

theorem runMethod (receiver : InstanceId) (method : MethodId) (m : Machine) :
    (Narrative.ofSagas limits true none).Covers m
      (Recorded.runMethod (.ofRoom limits room) receiver method arguments) := by
  refine .bind_of (.ask _) fun f n hn => ?_
  cases hn
  dsimp only
  cases hf : m.methods[method]? with
  | none => exact .pure _
  | some f =>
      intro hm
      obtain ⟨l, hbody, hlodges⟩ := hm.method receiver arguments hf
      -- the scope that binds `this` is made first
      have hthis : Saga limits true m [] (m.bindThis f.scope receiver) :=
        .step (.bindThis m f.scope receiver)
      have hrest := (runBody hR arguments hbody hlodges).bind fun result n =>
        .pure (if f.isInitializer then Value.instance receiver else result)
      exact .append hthis (hrest (hthis.lodges hm))

theorem runFunction (id : FunctionId) (m : Machine) :
    (Narrative.ofSagas limits true none).Covers m
      (Recorded.runFunction (.ofRoom limits room) id arguments) := by
  refine .bind_of (.ask _) fun f n hn => ?_
  cases hn
  dsimp only
  cases hf : m.functions[id]? with
  | none => exact .pure _
  | some f =>
      cases f with
      | bound receiver method => exact runMethod hR arguments receiver method m
      | closure name params body scope =>
          intro hm
          obtain ⟨l, hbody, hlodges⟩ := hm.closure arguments hf
          exact runBody hR arguments hbody hlodges hm

theorem construct (classId : ClassId) (m : Machine) :
    (Narrative.ofSagas limits true none).Covers m
      (Recorded.construct (.ofRoom limits room) classId arguments) := by
  refine .bind (.elementary (.make fun m => ?_)) fun id n => ?_
  · exact .of_quiet (.of_eq rfl rfl rfl rfl rfl rfl) (.newInstance m classId)
  refine .bind (.ask _) fun method n => ?_
  cases method with
  | none => exact .pure _
  | some method => exact .bind (runMethod hR arguments id method n) fun _ _ => .pure _

theorem invoke (callee : Value) (m : Machine) :
    (Narrative.ofSagas limits true none).Covers m
      (Recorded.invoke (.ofRoom limits room) callee arguments) := by
  cases callee with
  | function id => exact runFunction hR arguments id m
  | native id => exact .elementary (.callNative id arguments)
  | «class» id => exact construct hR arguments id m
  | nil | boolean | number | string | «instance» | list | map => exact .pure _

end Recorded.Entering

section Rooms

variable {room : Nat}
variable (hR : (Recorder.ofRoom limits room).Narrates Home.discipline (.ofSagas limits false))

/-- The answer to a question. -/
theorem Saga.starting
    {α : Type}
    {c : Recorded α}
    (q : Question)
    (hc : (Narrative.ofSagas limits false h).Covers m c) :
    (Narrative.ofSagas limits false h).Covers m (Recorded.starting q c) :=
  fun hm => .append (.note (.began q m)) (hc hm)

include hR

/-- An assignment to a variable is none to `this` and `super`. -/
theorem Saga.of_assign
    {name : String}
    {value : Expr}
    {span : Span}
    (he : (Expr.assign name value span).BelongsTo h)
    (m : Machine) :
    (Narrative.ofSagas limits false h).Covers m
      (Recorded.evaluateParts limits (.ofRoom limits room) (.assign name value span)) := by
  have hvalue := hR.evaluate (he.parts value (by simp [Expr.parts])) m
  refine .locating span (.bind hvalue fun v n => .bind (.own fun hn => ?_) fun _ _ => .pure _)
  rw [Eval.machine_assign]
  exact .of_scopes (.assign _ _ (he.names name (by simp [Expr.names])) v)

/-- A field is set after its instance and its value were evaluated. -/
theorem Saga.of_set
    {object value : Expr}
    {name : String}
    {span : Span}
    (he : (Expr.set object name value span).BelongsTo h)
    (m : Machine) :
    (Narrative.ofSagas limits false h).Covers m
      ((Recorder.ofRoom limits (room + 1)).evaluate (.set object name value span)) := by
  have hobject : ∀ n, (Narrative.ofSagas limits false h).Covers n _ :=
    hR.evaluate (he.parts object (by simp [Expr.parts]))
  have hvalue : ∀ n, (Narrative.ofSagas limits false h).Covers n _ :=
    hR.evaluate (he.parts value (by simp [Expr.parts]))
  by_cases hstores : ∃ id n v o,
      ((Recorder.ofRoom limits room).evaluate object m).1 = .done (.instance id) n ∧
      ((Recorder.ofRoom limits room).evaluate value n).1 = .done v o
  · obtain ⟨id, n, v, o, hn, ho⟩ := hstores
    intro hm
    have hlast : ((Recorder.ofRoom limits room).evaluate value >>= fun v =>
        Recorded.own (Eval.setField id name v) >>= fun _ => pure v) n =
          (.done v (o.withField id name v), ((Recorder.ofRoom limits room).evaluate value n).2) :=
      (Recorded.bind_done ho).trans (congrArg _ (List.append_nil _))
    have hanswer : (Recorder.ofRoom limits (room + 1)).evaluate (.set object name value span) m =
        (.done v (o.withField id name v), .began (.evaluate (.set object name value span)) m ::
          (((Recorder.ofRoom limits room).evaluate object m).2 ++
            ((Recorder.ofRoom limits room).evaluate value n).2)) := by
      simp only [Recorder.ofRoom, Recorder.deeper, Recorded.starting, Recorded.evaluateParts,
        Recorded.locating, Eval.locating, Recorded.bind_done hn, hlast]
    have hfirst := hobject m hm
    rw [hn] at hfirst
    have hsecond := hvalue n (hfirst.lodges hm)
    rw [ho] at hsecond
    rw [hanswer]
    refine .store ⟨object, value, span, m, n, o, room, rfl, ?_, ?_⟩ (.append hfirst hsecond)
    all_goals rw [← Recorder.evaluator_ofRoom]; assumption
  · refine Saga.starting _ (.locating span (.bind_of (hobject m) fun object' n hn => ?_))
    cases object' with
    | «instance» id =>
        exact .bind_of (hvalue n) fun v o ho => absurd ⟨id, n, v, o, hn, ho⟩ hstores
    | nil | boolean | number | string | function | native | «class» | list | map => exact .fail _

omit hR in
/-- **Sagas.** The answers of the recorder for any room have sagas. -/
theorem Recorder.told_ofRoom (limits : Limits) (room : Nat) :
    (Recorder.ofRoom limits room).Narrates Home.discipline (.ofSagas limits false) := by
  induction room with
  | zero =>
      exact
        { evaluate := fun _ _ => .stop trivial
          execute := fun _ _ => .stop trivial
          run := fun _ _ => .stop trivial }
  | succ room ih =>
      constructor
      · intro h e he m
        have hcall (frame : Frame) (callee : Value) (arguments : List Value) (m : Machine) :
            (Narrative.ofSagas limits false h).Covers m
              (Recorded.inCall frame (Recorded.invoke (.ofRoom limits room) callee arguments)) :=
          Recorded.Entering.inCall (Recorded.Entering.invoke ih arguments callee (m.pushFrame frame))
        cases e with
        | assign name value span => exact Saga.starting _ (Saga.of_assign ih he m)
        | set object name value span => exact Saga.of_set ih he m
        | literal | reference | binary | unary | logical | conditional | call | get | this | super
        | list | map | index | indexSet | function =>
            exact Saga.starting _ (Narration.evaluateParts ih hcall he id m)
      · intro h s hs m
        exact Saga.starting _ (.settle _ _ (Narration.executeParts ih hs m))
      · intro h body hbody m
        exact Saga.starting _ (Narration.executeAll ih hbody m)

end Rooms

end Lox
