import Lox.Proofs.Construction.Call
import Lox.Proofs.Construction.Reach

/-!
# Running initializers

The body of a method that is called starts in a scope right inside the one that binds `this` for the
call. So `this` is the instance all the while that its own code runs, and the calls of `super.init`
in this code run further initializers on the same instance.
-/

namespace Lox

/-- What happens on the later machine happens in code of the body that started on the earlier one:
outside of the calls that the body makes, or in a function that it made. -/
def Machine.Covers (start n : Machine) : Prop :=
  n.frames.length = start.frames.length ∨
    ∃ call, (start.scopes.get start.current).parent = some call ∧ n.scopes.Inside call n.current

/-- The body of a method starts on the instance, in the scope of the parameters. -/
structure Machine.StartsOn (m : Machine) (body : List Stmt) (receiver : InstanceId) : Prop where
  home : ∃ h, (∀ s ∈ body, s.BelongsTo h) ∧ m.Lodges h
  call : ∃ closure call, (m.scopes.get m.current).parent = some call ∧
    m.scopes.IsCall closure receiver call ∧ m.scopes.Inside call m.current

/-- The call of a class runs the body of an initializer that starts on the machine: the one that the
call itself runs, or one that is run by way of `super.init`. The call of `super.init` is evaluated
in the code of an initializer that the call of the class runs, or elsewhere on the same instance. -/
inductive RunsInit
    (limits : Limits)
    (classId : ClassId)
    (arguments : List Value)
    (site : Option Span)
    (m : Machine) :
    List Stmt → Machine → Prop
  | own
      {room : Nat}
      {body : List Stmt}
      {n : Machine}
      (hasks : Asks (fun g => Eval.callValue limits g (.class classId) arguments site m)
        (.ofRoom limits room) (.run body) n) :
      RunsInit limits classId arguments site m body n
  | super
      {room room' : Nat}
      {body body' : List Stmt}
      {n n' n'' : Machine}
      {place span : Span}
      {es : List Expr}
      (h : RunsInit limits classId arguments site m body n)
      (hbegan : .began (.evaluate (.call (.super "init" place) es span)) n' ∈
        (Recorder.ofRoom limits room).journal (.run body) n)
      (hwhere : n.Covers n' ∨
        n'.scopes.value n'.current "this" = n.scopes.value n.current "this")
      (hasks : Asks (fun g =>
          (Evaluator.deeper limits g).evaluate (.call (.super "init" place) es span) n')
        (.ofRoom limits room') (.run body') n'') :
      RunsInit limits classId arguments site m body' n''

section Lodging

variable {limits : Limits} {room : Nat} {h : Option Home} {m n : Machine}

theorem Machine.Continues.newInstance (m : Machine) (classId : ClassId) :
    m.Continues (m.newInstance classId).2 :=
  .of_proceeds (.of_quiet (.of_eq rfl rfl rfl rfl rfl rfl) (.newInstance m classId))

/-- Expressions are evaluated one after another where they are at home. -/
theorem Machine.Lodges.evaluateAll
    {es : List Expr}
    {vs : List Value}
    (hm : m.Lodges h)
    (hes : ∀ e ∈ es, e.BelongsTo h)
    (hdone : Eval.evaluateAll (.ofRoom limits room) es m = .done vs n) :
    m.Continues n ∧ n.Lodges h := by
  have hcovers : (Narrative.ofSagas limits false h).Covers m _ :=
    Narration.evaluateAll (Recorder.told_ofRoom limits room) hes m
  have htold : Saga limits false m _ _ := hcovers hm
  have htracks : Tracks false false [] _ _ _ := Tracks.evaluateAll es
  have hn : (Recorded.evaluateAll (.ofRoom limits room) es m).1.machine = n := by
    rw [htracks.erases, Recorder.evaluator_ofRoom, hdone]
    rfl
  rw [hn] at htold
  exact ⟨htold.continues.1, htold.lodges hm⟩

/-- An expression is evaluated where it is at home. -/
theorem Machine.Lodges.evaluate
    {e : Expr}
    {v : Value}
    (hm : m.Lodges h)
    (he : e.BelongsTo h)
    (hdone : (Evaluator.ofRoom limits room).evaluate e m = .done v n) :
    m.Continues n ∧ n.Lodges h := by
  have hn : (Evaluator.ofRoom limits room).leaves (.evaluate e) m = n :=
    congrArg Outcome.machine hdone
  have hq : Home.discipline.admits h (.evaluate e) := he
  rw [← hn]
  exact ⟨(Saga.answer hm hq limits room).continues.1, hm.leaves hq limits room⟩

end Lodging

section Starting

variable {limits : Limits} {room : Nat} {h : Option Home} {m n : Machine} {body : List Stmt}
variable {receiver : InstanceId}

/-- A method that is called starts on its instance. -/
theorem Machine.Lodges.startsOn
    (hm : m.Lodges h)
    {id : MethodId}
    {f : MethodObject}
    (hf : m.methods[id]? = some f)
    (receiver : InstanceId)
    (arguments : List Value) :
    (m.methodActivation f receiver arguments).start.StartsOn f.body receiver := by
  refine ⟨hm.method receiver arguments hf, f.scope, m.scopes.all.size, ?_⟩
  obtain ⟨c, hc⟩ := hm.housed.methods f (Array.mem_of_getElem? hf)
  let scopes := (m.scopes.create ⟨some f.scope, [⟨"this", .instance receiver, false⟩]⟩).1
  have hcall : scopes.IsCall f.scope receiver m.scopes.all.size := .create receiver hc.inRange
  have hlt : m.scopes.all.size < scopes.all.size := by simp [scopes]
  have hbindings (b : Binding) (hb : b ∈ parameterBindings f.params arguments) :
      ¬IsReserved b.name :=
    not_isReserved_of_mem_parameterBindings hc.params hb
  have hparent (bindings : List Binding) :
      ((scopes.create ⟨some m.scopes.all.size, bindings⟩).1.get scopes.all.size).parent =
        some m.scopes.all.size := by simp
  simp only [methodActivation, bindThis_eq, enter_eq]
  exact ⟨hparent _, hcall.extend (.create _ _) hlt,
    .child (hparent _) hlt (Scopes.isPlain_create hbindings)⟩

namespace Machine.StartsOn

theorem inCall (h : m.StartsOn body receiver) :
    ∃ closure, m.scopes.InCall closure receiver m.current := by
  obtain ⟨closure, call, -, hcall, hinside⟩ := h.call
  exact ⟨closure, call, hcall, hinside⟩

theorem value_this (h : m.StartsOn body receiver) :
    m.scopes.value m.current "this" = .ok (.instance receiver) := by
  obtain ⟨closure, hcall⟩ := h.inCall
  exact hcall.value_this

/-- In the code of the body `this` is the instance. -/
theorem value_this_of_covers
    {e : Event}
    (h : m.StartsOn body receiver)
    (he : e ∈ (Recorder.ofRoom limits room).journal (.run body) m)
    (hcovers : m.Covers e.machine) :
    e.machine.scopes.value e.machine.current "this" = .ok (.instance receiver) := by
  obtain ⟨l, hbody, hm⟩ := h.home
  have hsaga := Saga.answer (q := .run body) hm hbody limits room
  rcases hcovers with hframes | ⟨call, hparent, hinside⟩
  · obtain ⟨closure, hcall⟩ := h.inCall
    exact ((hsaga.inCall hm.ranged hcall).2 e he hframes).value_this
  · obtain ⟨closure, call', hparent', hcall, hwithin⟩ := h.call
    obtain rfl : call = call' := Option.some.inj (hparent.symm.trans hparent')
    have hextend := (hsaga.continues.2 e he).evolves.scopes
    have hcall' := hcall.extend hextend (Nat.lt_trans hwithin.lt hm.ranged)
    exact Scopes.InCall.value_this ⟨call, hcall', hinside⟩

end Machine.StartsOn

/-- The call of a method of the superclass runs it on the instance that is `this`. -/
theorem Machine.Lodges.startsOn_super
    {name : String}
    {place span : Span}
    {es : List Expr}
    (hm : m.Lodges h)
    (he : (Expr.call (.super name place) es span).BelongsTo h)
    (hthis : m.scopes.value m.current "this" = .ok (.instance receiver))
    (hasks : Asks (fun g =>
        (Evaluator.deeper limits g).evaluate (.call (.super name place) es span) m)
      (.ofRoom limits room) (.run body) n) :
    n.StartsOn body receiver := by
  obtain ⟨f, n₁, vs, n₂, hcallee, harguments, hcall⟩ := Eval.call_of_asks hasks
  have hsuper : (Expr.super name place).BelongsTo h := he.parts _ (by simp [Expr.parts])
  obtain ⟨-, -, parent, receiver', -, -, -, hthis', hvalue⟩ := hm.shelters.super hsuper
  obtain rfl : receiver = receiver' := by
    rw [hthis] at hthis'
    exact Value.instance.inj (Except.ok.inj hthis')
  have hlodges := (hm.evaluate hsuper hcallee).2
  obtain ⟨hcontinues, hlodges'⟩ := hlodges.evaluateAll
    (fun e' he' => he.parts e' (by simp [Expr.parts, he'])) harguments
  cases room with
  | zero => cases hcallee
  | succ room =>
      rw [evaluate_super_eq hthis hvalue] at hcallee
      cases hfound : m.findMethod? parent name with
      | none =>
          rw [hfound] at hcallee
          cases hcallee
      | some method =>
          rw [hfound] at hcallee
          cases hcallee
          have hbound : (m.newFunction (.bound receiver method)).2.functions[m.functions.size]? =
              some (.bound receiver method) := Array.getElem?_push_size
          obtain ⟨f, frame, hf, hrun, rfl⟩ :=
            Eval.asks_bound (hcontinues.functions hbound) hcall
          obtain rfl := Question.run.inj hrun
          exact (hlodges'.later (.pushFrame n₂ frame) rfl).startsOn hf receiver vs

variable {classId : ClassId} {arguments : List Value} {site : Option Span}

/-- A class that has an initializer runs it, if it can be called with the arguments. -/
theorem RunsInit.exists_of_findMethod?
    {method : MethodId}
    {f : MethodObject}
    (hfound : m.findMethod? classId "init" = some method)
    (hf : m.methods[method]? = some f)
    (hlength : arguments.length = f.params.length)
    (hdepth : m.frames.length < limits.maxCallDepth) :
    ∃ n, RunsInit limits classId arguments site m f.body n := by
  have hclass : ∃ c, m.classes[classId]? = some c := by
    cases Machine.nearestMethod_of_findMethod? hfound with
    | own hc | inherited hc => exact ⟨_, hc⟩
  obtain ⟨c, hc⟩ := hclass
  have harity : Eval.arity? m (.class classId) = some arguments.length := by
    simp [Eval.arity?, Machine.methodArity, hfound, hf, hlength]
  let pushed := m.pushFrame ⟨Eval.calleeName m (.class classId), site⟩
  have hgrows : m.Grows (pushed.newInstance classId).2 := .of_eq rfl rfl
  have hfound' := (hgrows.findMethod?_eq "init" hc).trans hfound
  let a := (pushed.newInstance classId).2.methodActivation f m.instances.size arguments
  have hstops (g : Evaluator) (why : Interruption)
      (hstopped : g.answer (.run f.body) a.start = .inr (.stopped why a.start)) :
      ∃ n, Eval.callValue limits g (.class classId) arguments site m = .stopped why n := by
    have hrun : g.run f.body a.start = .stopped why a.start := Sum.inr.inj hstopped
    have hinvoke : Eval.invoke g (.class classId) arguments pushed =
        (a.returning (.instance m.instances.size)).outcome (g.run f.body a.start) :=
      Eval.invoke_class_of_found g hfound' hf
    rw [Eval.callValue_apply g site harity hdepth, hinvoke, hrun]
    exact ⟨_, rfl⟩
  exact ⟨a.start, @own limits classId arguments site m 0 _ _ (asks_of_stopped hstops)⟩

/-- All initializers that the call of a class runs run on the new instance. -/
theorem RunsInit.startsOn
    (hinit : RunsInit limits classId arguments site m body n)
    (hm : m.Lodges h) :
    n.StartsOn body m.instances.size := by
  induction hinit with
  | own hasks =>
      obtain ⟨method, f, frame, hf, hrun, rfl⟩ := Eval.asks_class hasks
      obtain rfl := Question.run.inj hrun
      have hmade := (Machine.Continues.pushFrame m frame).trans (.newInstance _ classId)
      exact (hm.later hmade rfl).startsOn hf m.instances.size arguments
  | @super room room' body body' n n' n'' place span es _ hbegan hwhere hasks ih =>
      obtain ⟨l, hbody, hn⟩ := ih.home
      obtain ⟨l', hadmits, hn'⟩ := hn.began (q := .run body) hbody hbegan
      have hthis : n'.scopes.value n'.current "this" = .ok (.instance m.instances.size) := by
        rcases hwhere with hcovers | hsame
        · exact ih.value_this_of_covers hbegan hcovers
        · exact hsame.trans ih.value_this
      exact hn'.startsOn_super hadmits hthis hasks

/-- The call of a class leaves an instance of this class behind. -/
theorem Eval.classOf_callValue_class
    {v : Value}
    (hm : m.Lodges h)
    (hdone : callValue limits (.ofRoom limits room) (.class classId) arguments site m = .done v n) :
    n.classOf? m.instances.size = some classId := by
  obtain ⟨-, frame, hn⟩ := callValue_class hdone
  let made := ((m.pushFrame frame).newInstance classId).2
  have hmade : made.classOf? m.instances.size = some classId := by
    simp [made, Machine.classOf?, Machine.newInstance, Machine.pushFrame]
  rcases hn with rfl | ⟨method, f, hf, rfl⟩
  · exact hmade
  · have hcontinues := (Machine.Continues.pushFrame m frame).trans (.newInstance _ classId)
    obtain ⟨l, hbody, hstart⟩ :=
      ((hm.later hcontinues rfl).startsOn hf m.instances.size arguments).home
    have hsaga := Saga.answer (q := .run f.body) hstart hbody limits room
    refine hsaga.continues.1.classOf ?_
    simp only [Machine.methodActivation, Machine.bindThis_eq, Machine.enter_eq]
    exact hmade

end Starting

end Lox
