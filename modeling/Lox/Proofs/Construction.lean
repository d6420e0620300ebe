import Lox.Proofs.Construction.Initializer

/-!
# Construction

The call of a class makes a new instance, runs its initializers on it and gives it back. Its fields
are its own: they are set by assignments to its properties and by nothing else.
-/

namespace Lox

/-- The function is a method of this name that was bound to the instance. -/
def Machine.Binds (m : Machine) (id : FunctionId) (receiver : InstanceId) (name : String) : Prop :=
  ∃ (method : MethodId) (f : MethodObject), m.functions[id]? = some (.bound receiver method) ∧
    m.methods[method]? = some f ∧ f.name = name

section Properties

variable {limits : Limits} {room : Nat} {h : Option Home} {m n : Machine} {name : String}

/-- The search for a method finds one that has the name. -/
theorem Machine.Housed.exists_of_findMethod?
    {id : ClassId}
    {method : MethodId}
    (hm : m.Housed)
    (hfound : m.findMethod? id name = some method) :
    ∃ f, m.methods[method]? = some f ∧ f.name = name := by
  have hnearest := Machine.nearestMethod_of_findMethod? hfound
  clear hfound
  induction hnearest with
  | @own id c method hc hown =>
      obtain ⟨before, after, htable, -⟩ := List.lookup_eq_some_iff.mp hown
      obtain ⟨f, hf, -, hname⟩ := hm.tables id c hc (name, method) (by simp [htable])
      exact ⟨f, hf, hname⟩
  | inherited hc hown hparent hnearest ih => exact ih

/-- A call of an initializer gives its instance. -/
theorem Machine.Lodges.eq_of_call_initializer
    {callee : Expr}
    {arguments : List Expr}
    {span : Span}
    {f : FunctionId}
    {receiver : InstanceId}
    {n₁ : Machine}
    {v : Value}
    (hm : m.Lodges h)
    (hmarks : m.Marks)
    (he : (Expr.call callee arguments span).BelongsTo h)
    (hcallee : (Evaluator.ofRoom limits room).evaluate callee m = .done (.function f) n₁)
    (hbinds : n₁.Binds f receiver "init")
    (hdone : (Evaluator.ofRoom limits (room + 1)).evaluate (.call callee arguments span) m =
      .done v n) :
    v = .instance receiver := by
  obtain ⟨f', n₁', vs, n₂, hcallee', harguments, hcall⟩ := Eval.call_of_done hdone
  cases hcallee.symm.trans hcallee'
  obtain ⟨method, g, hbound, hg, hname⟩ := hbinds
  obtain ⟨hcontinues, hlodges⟩ := hm.evaluate (he.parts _ (by simp [Expr.parts])) hcallee
  have hlater := (hlodges.evaluateAll (fun e' he' => he.parts e' (by simp [Expr.parts, he']))
    harguments).1
  have hmarked : g.isInitializer = true := by
    rw [hcontinues.marks hmarks g (Array.mem_of_getElem? hg), hname]
    rfl
  exact Eval.callValue_initializer (hlater.functions hbound) (hlater.evolves.grows.methods hg)
    hmarked hcall

/-- A method that is read from an instance is bound to it. -/
theorem Machine.Lodges.binds_property
    {e : Expr}
    {id : InstanceId}
    {i : InstanceObject}
    {method : MethodId}
    (hm : m.Lodges h)
    (he : e.BelongsTo h)
    (hdone : (Evaluator.ofRoom limits room).evaluate e m = .done (.instance id) n)
    (hfound : n.findMethod? i.classId name = some method) :
    (n.newFunction (.bound id method)).2.Binds n.functions.size id name := by
  obtain ⟨f, hf, hname⟩ := (hm.evaluate he hdone).2.housed.exists_of_findMethod? hfound
  exact ⟨method, f, Array.getElem?_push_size, hf, hname⟩

/-- A call of the initializer of an instance gives this instance. -/
theorem Machine.Lodges.eq_of_call_init
    {object : Expr}
    {arguments : List Expr}
    {place span : Span}
    {id : InstanceId}
    {i : InstanceObject}
    {n₁ : Machine}
    {v : Value}
    (hm : m.Lodges h)
    (hmarks : m.Marks)
    (he : (Expr.call (.get object "init" place) arguments span).BelongsTo h)
    (hobject : (Evaluator.ofRoom limits room).evaluate object m = .done (.instance id) n₁)
    (hi : n₁.instances[id]? = some i)
    (hfield : i.fields.lookup "init" = none)
    (hdone : (Evaluator.ofRoom limits (room + 2)).evaluate
      (.call (.get object "init" place) arguments span) m = .done v n) :
    v = .instance id := by
  have hget : (Evaluator.ofRoom limits (room + 1)).evaluate (.get object "init" place) m = _ :=
    Eval.evaluate_get hobject hi
  simp only [hfield] at hget
  cases hfound : n₁.findMethod? i.classId "init" with
  | none =>
      obtain ⟨f, n₁', vs, n₂, hcallee, -⟩ := Eval.call_of_done hdone
      rw [hfound] at hget
      cases hget.symm.trans hcallee
  | some method =>
      rw [hfound] at hget
      have hproperty : (Expr.get object "init" place).BelongsTo h :=
        he.parts _ (by simp [Expr.parts])
      have hbinds := hm.binds_property (hproperty.parts _ (by simp [Expr.parts])) hobject hfound
      exact hm.eq_of_call_initializer hmarks he hget hbinds hdone

end Properties

section Fields

variable (m : Machine) (id : InstanceId) (name : String) (v : Value)

/-- Setting a field changes one instance. -/
theorem Machine.getElem?_withField_of_ne
    {j : InstanceId}
    (hj : j ≠ id) :
    (m.withField id name v).instances[j]? = m.instances[j]? := by
  rw [getElem?_withField]
  simp [hj]

/-- Setting a field of an instance leaves its class and its other fields alone. -/
theorem Machine.exists_of_withField
    {i : InstanceObject}
    (hi : m.instances[id]? = some i) :
    ∃ i', (m.withField id name v).instances[id]? = some i' ∧ i'.classId = i.classId ∧
      ∀ other, i'.fields.lookup other = if other = name then some v else i.fields.lookup other := by
  refine ⟨{ i with fields := Eval.putNamed name v i.fields }, ?_, rfl, fun other => ?_⟩
  · rw [getElem?_withField, hi]
    simp
  · exact Eval.lookup_putNamed name other v i.fields

end Fields

/-- **Construction.** Take any session, the sources that it runs, and the machines that it reaches
meanwhile.

If the call of a class has a value, whatever the arguments are, then the value is an instance that
was not there before, and its class is the one that was called. If the search finds an initializer,
and the call is not refused, then the initializer is run. In all initializers that the call runs, by
itself or by way of `super.init`, `this` is the new instance all the while that their own code runs.
If the callee of a call is an `init` that was bound to an instance, and the call has a value, then
the value is this instance; so it is if `init` is called through an instance that has no field of
this name. Whatever is called, what its body throws and whatever else stops
the body stops the call in the same way, without a value.

An assignment to a property, if it has a value, changes this one field of this one instance and
nothing else. A property that is read is the field that the instance itself has. If it has none of
this name, then it is the method that the search finds for its class, bound to the instance, and if
there is none, it is a fault. Whatever field an instance has at an event of the history, or in the
end, was stored by an assignment to a property that began before. -/
theorem construction_fresh
    (options : Options)
    (fuel : Nat)
    (terminal : Bool)
    (sources : SourceMap)
    (clock : Nat → Float)
    (inputs : List (String × String × Bool)) :
    let s := Session.new options fuel terminal sources clock
    let evaluator := Evaluator.ofRoom s.limits
    (∀ m, s.Reaches inputs m → ∀ room classId arguments site,
      (∀ v n, Eval.callValue s.limits (evaluator room) (.class classId) arguments site m =
          .done v n →
        v = .instance m.instances.size ∧
        m.instances[m.instances.size]? = none ∧
        n.classOf? m.instances.size = some classId) ∧
      (∀ method, m.findMethod? classId "init" = some method →
        ∃ f, m.methods[method]? = some f ∧ f.name = "init" ∧
          (arguments.length = f.params.length → m.frames.length < s.limits.maxCallDepth →
            ∃ n, RunsInit s.limits classId arguments site m f.body n)) ∧
      ∀ body n, RunsInit s.limits classId arguments site m body n →
        n.scopes.value n.current "this" = .ok (.instance m.instances.size) ∧
        ∀ room e, e ∈ (Recorder.ofRoom s.limits room).journal (.run body) n →
          n.Covers e.machine →
          e.machine.scopes.value e.machine.current "this" = .ok (.instance m.instances.size)) ∧
    (∀ callee arguments span m,
      .began (.evaluate (.call callee arguments span)) m ∈ s.history inputs →
      ∀ room f n₁ receiver v n,
        (evaluator room).evaluate callee m = .done (.function f) n₁ →
        n₁.Binds f receiver "init" →
        (evaluator (room + 1)).evaluate (.call callee arguments span) m = .done v n →
        v = .instance receiver) ∧
    (∀ object place arguments span m,
      .began (.evaluate (.call (.get object "init" place) arguments span)) m ∈ s.history inputs →
      ∀ room id n₁ i v n,
        (evaluator room).evaluate object m = .done (.instance id) n₁ →
        n₁.instances[id]? = some i → i.fields.lookup "init" = none →
        (evaluator (room + 2)).evaluate (.call (.get object "init" place) arguments span) m =
          .done v n →
        v = .instance id) ∧
    (∀ room callee arguments site m body n,
      Asks (fun g => Eval.callValue s.limits g callee arguments site m) (evaluator room)
        (.run body) n →
      (∀ t n', (evaluator room).run body n = .done (.thrown t) n' →
        ∃ n'', Eval.callValue s.limits (evaluator room) callee arguments site m =
          .stopped (.thrown t) n'') ∧
      ∀ why n', (evaluator room).run body n = .stopped why n' →
        ∃ n'', Eval.callValue s.limits (evaluator room) callee arguments site m =
          .stopped why n'') ∧
    (∀ room object name value span m v n,
      (evaluator (room + 1)).evaluate (.set object name value span) m = .done v n →
      ∃ id n₁ n₂,
        (evaluator room).evaluate object m = .done (.instance id) n₁ ∧
        (evaluator room).evaluate value n₁ = .done v n₂ ∧
        n = { n₂ with instances := n.instances } ∧
        (∀ j, j ≠ id → n.instances[j]? = n₂.instances[j]?) ∧
        ∀ i, n₂.instances[id]? = some i →
          ∃ i', n.instances[id]? = some i' ∧ i'.classId = i.classId ∧
            ∀ other, i'.fields.lookup other =
              if other = name then some v else i.fields.lookup other) ∧
    (∀ object name span m,
      .began (.evaluate (.get object name span)) m ∈ s.history inputs →
      ∀ room id n i,
        (evaluator room).evaluate object m = .done (.instance id) n →
        n.instances[id]? = some i →
        let result := (evaluator (room + 1)).evaluate (.get object name span) m
        (∀ v, i.fields.lookup name = some v → result = .done v n) ∧
        (i.fields.lookup name = none →
          (∀ method, n.findMethod? i.classId name = some method →
            let o := (n.newFunction (.bound id method)).2
            result = .done (.function n.functions.size) o ∧ o.Binds n.functions.size id name) ∧
          (n.findMethod? i.classId name = none →
            let fault := Fault.undefinedProperty name s!"{n.className i.classId} instance"
            result = .stopped (.failed ⟨fault, some (span, fault.message), []⟩) n))) ∧
    ∀ id name v,
      (∀ past e later, s.history inputs = past ++ e :: later → e.machine.HasField id name v →
        ∃ a ∈ past, a.Stores id name v s.limits) ∧
      ((s.after inputs).machine.HasField id name v →
        ∃ a ∈ s.history inputs, a.Stores id name v s.limits) := by
  intro s evaluator
  have hs : s.machine.Established := Machine.established_initial clock
  have hmarks : s.machine.Marks := by simp [s, Session.new, Machine.Marks, Machine.initial]
  refine ⟨fun m hm room classId arguments site => ?_,
    fun callee arguments span m hbegan room f n₁ receiver v n hcallee hbinds hdone => ?_,
    fun object place arguments span m hbegan room id n₁ i v n hobject hi hfield hdone => ?_,
    fun room callee arguments site m body n hasks => Eval.callValue_of_run hasks,
    fun room object name value span m v n hdone => ?_,
    fun object name span m hbegan room id n i hobject hi => ?_, fun id name v => ?_⟩
  · obtain ⟨h, hlodges⟩ := hm.lodges hs
    refine ⟨fun v n hdone => ⟨(Eval.callValue_class hdone).1, by simp, ?_⟩,
      fun method hfound => ?_, fun body n hinit => ?_⟩
    · exact Eval.classOf_callValue_class hlodges hdone
    · obtain ⟨f, hf, hname⟩ := hlodges.housed.exists_of_findMethod? hfound
      exact ⟨f, hf, hname, RunsInit.exists_of_findMethod? hfound hf⟩
    · have hstart := hinit.startsOn hlodges
      exact ⟨hstart.value_this, fun _ _ he hcovers => hstart.value_this_of_covers he hcovers⟩
  · obtain ⟨h, hcall, hlodges⟩ := Session.lodges_of_began hs hbegan
    exact hlodges.eq_of_call_initializer (Session.marks_of_began hs hmarks hbegan) hcall hcallee
      hbinds hdone
  · obtain ⟨h, hcall, hlodges⟩ := Session.lodges_of_began hs hbegan
    exact hlodges.eq_of_call_init (Session.marks_of_began hs hmarks hbegan) hcall hobject hi hfield
      hdone
  · obtain ⟨id, n₁, n₂, hobject, hvalue, rfl⟩ := Eval.set_of_done hdone
    exact ⟨id, n₁, n₂, hobject, hvalue, rfl,
      fun j hj => n₂.getElem?_withField_of_ne id name v hj,
      fun i hi => n₂.exists_of_withField id name v hi⟩
  · have hget : (evaluator (room + 1)).evaluate (.get object name span) m = _ :=
      Eval.evaluate_get hobject hi
    obtain ⟨h, hproperty, hlodges⟩ := Session.lodges_of_began hs hbegan
    refine ⟨fun v hv => ?_, fun hnone => ⟨fun method hmethod => ⟨?_, ?_⟩, fun hmissing => ?_⟩⟩
    · rw [hget, hv]
    · rw [hget, hnone, hmethod]
    · exact hlodges.binds_property (Expr.BelongsTo.parts hproperty object (by simp [Expr.parts]))
        hobject hmethod
    · rw [hget, hnone, hmissing]
  · have hsaga := @Saga.hasField s.limits false s.machine _ _ id name v (s.saga inputs hs)
    have hnothing : ¬s.machine.HasField id name v := by
      rintro ⟨i, hi, -⟩
      simp [s, Session.new, Machine.initial] at hi
    exact ⟨fun past e later heq he => (hsaga.2 past e later heq he).resolve_left hnothing,
      fun hlast => (hsaga.1 hlast).resolve_left hnothing⟩

/-- Does something begin where there is a class with this number, and does the call of this class
without arguments have a value there? -/
def Event.constructs (limits : Limits) (classId : ClassId) : Event → Bool
  | .began _ m =>
      match Eval.callValue limits (.ofRoom limits 20) (.class classId) [] none m with
      | .done _ _ => classId < m.classes.size
      | .stopped _ _ => false
  | _ => false

theorem Event.exists_of_constructs
    {limits : Limits}
    {classId : ClassId}
    {e : Event}
    (h : e.constructs limits classId = true) :
    ∃ q m v n, e = .began q m ∧ classId < m.classes.size ∧
      Eval.callValue limits (.ofRoom limits 20) (.class classId) [] none m = .done v n := by
  unfold constructs at h
  split at h
  · split at h
    · next hdone => exact ⟨_, _, _, _, rfl, of_decide_eq_true h, hdone⟩
    · cases h
  · cases h

theorem construction_fresh_inherited :
    let source := "class A \x7b init(x) \x7b this.x = x; \x7d \x7d
      class B < A \x7b init() \x7b super.init(3); return; \x7d \x7d
      print B().x;"
    let s := Session.new .default 100 false (.empty "" false) fun _ => 0
    (s.run source "" false).1.stdout = "3\n" ∧
      ∃ m n, s.Reaches [(source, "", false)] m ∧ 1 < m.classes.size ∧
        Eval.callValue s.limits (.ofRoom s.limits 20) (.class 1) [] none m =
          .done (.instance m.instances.size) n ∧
        n.classOf? m.instances.size = some 1 := by
  intro source s
  have hconstructs : (s.history [(source, "", false)]).any (Event.constructs s.limits 1) = true := by
    decide +kernel
  obtain ⟨e, he, hevent⟩ := List.any_eq_true.mp hconstructs
  obtain ⟨q, m, v, n, rfl, hclass, hdone⟩ := Event.exists_of_constructs hevent
  have hreaches : s.Reaches [(source, "", false)] m := ⟨q, m, he, .inl rfl⟩
  obtain ⟨rfl, -, hof⟩ := ((construction_fresh .default 100 false (.empty "" false) (fun _ => 0)
    [(source, "", false)]).1 m hreaches 20 1 [] none).1 v n hdone
  exact ⟨by decide +kernel, m, n, hreaches, hclass, hdone, hof⟩

end Lox
