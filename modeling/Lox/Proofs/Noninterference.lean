import Lox.Proofs.Realm.Operation
import Lox.Proofs.Simulation.Statement

/-!
# Lexical scoping as noninterference

A call depends only on what can be reached from the callee, the arguments and the built-in
functions, and changes nothing else. So the local variables of the caller that no closure has
captured have no influence on a call, and a call has none on them.
-/

namespace Lox

namespace Realm

open Eval

/-- All code may run. The setting says whether code runs at all; a call may also be made from
outside. -/
def discipline : Discipline where
  Setting := Bool
  runs k := k = true
  expr k _ := k = true
  stmt k _ := k = true
  body k _ := k = true
  binds _ _ := True
  breaks _ := True
  returns _ := True
  block k := k
  loop k := k
  runs_expr h := h
  runs_stmt h := h
  body_stmts h _ _ := h
  runs_block h := h
  block_block _ := rfl
  expr_block h := h
  expr_parts h _ _ := h
  stmt_expressions h _ _ := h
  stmt_branches h _ _ := h
  stmt_inner h _ _ := h
  stmt_loopBody h _ _ := h
  stmt_handlerNames _ _ _ := trivial
  stmt_break _ := trivial
  stmt_continue _ := trivial
  stmt_return _ := trivial
  breaks_block _ := trivial
  returns_block _ := trivial
  returns_loop _ := trivial

/-- Machines that are alike in the realm stay so. -/
def simulation (R : Realm) : Simulation discipline where
  Place := ScopeId
  scope p := p
  rel k p m m' := R.Abreast k p m m'
  beside _ _ := True
  value := R.Sees
  method id := R.live ⟨.methods, id⟩

variable {R : Realm}
variable {k : Bool} {p q : ScopeId} {m m' n n' : Machine}

theorem Alike.leave (h : R.Alike n n') (scope scope' : ScopeId) :
    R.Alike (n.leave scope) (n'.leave scope') :=
  h.of_eq (fun _ => rfl) (fun _ => rfl) h.frames h.output h.clock

/-- When code elsewhere has ended, the code here may go on. -/
theorem Abreast.leave (hm : R.Abreast k p m m') (hn : R.Abreast true q n n') :
    R.Abreast k p (n.leave m.current) (n'.leave m'.current) where
  alike := hn.alike.leave _ _
  current := hm.current
  current' := hm.current'
  live := hm.live

/-- A new scope, which is entered. -/
theorem Alike.createScope
    {scope : Scope}
    (h : R.Alike m m')
    (hscope : ∀ t ∈ (Object.scope scope).refs, R.live t) :
    R.Abreast true m.scopes.all.size
      { m with scopes := (m.scopes.create scope).1, current := m.scopes.all.size }
      { m' with scopes := (m'.scopes.create scope).1, current := m'.scopes.all.size } where
  alike := (h.puts_new (m.puts_create scope) (m'.puts_create scope) hscope).leave _ _
  current _ := rfl
  current' _ := (h.count_eq .scopes).symm
  live _ := h.live_count .scopes

theorem Alike.enter
    {parent : ScopeId} {bindings : List Binding}
    (h : R.Alike m m')
    (hparent : R.live ⟨.scopes, parent⟩)
    (hbindings : ∀ b ∈ bindings, R.Sees b.value) :
    R.Abreast true m.scopes.all.size (m.enter parent bindings) (m'.enter parent bindings) := by
  rw [Machine.enter_eq, Machine.enter_eq]
  refine h.createScope fun t ht => ?_
  rcases List.mem_cons.mp ht with rfl | ht
  · exact hparent
  · obtain ⟨b, hb, ht⟩ := List.mem_flatMap.mp ht
    exact hbindings b (Scope.mem_bound hb) t ht

theorem sees_parameterBindings
    {params : List String} {arguments : List Value}
    (harguments : ∀ v ∈ arguments, R.Sees v) :
    ∀ b ∈ parameterBindings params arguments, R.Sees b.value := by
  intro b hb
  obtain ⟨pair, hpair, rfl⟩ := List.mem_map.mp hb
  exact harguments pair.2 (List.of_mem_zip hpair).2

/-- The machines after `this` was bound for a method. -/
theorem Alike.bindThis
    {parent : ScopeId} {receiver : InstanceId}
    (h : R.Alike m m')
    (hparent : R.live ⟨.scopes, parent⟩)
    (hreceiver : R.live ⟨.instances, receiver⟩) :
    R.Alike (m.bindThis parent receiver) (m'.bindThis parent receiver) := by
  rw [Machine.bindThis_eq, Machine.bindThis_eq]
  refine h.puts_new (m.puts_create _) (m'.puts_create _) fun t ht => ?_
  have ht : t = ⟨.scopes, parent⟩ ∨ t = ⟨.instances, receiver⟩ := by
    simpa [Object.refs, Value.refs] using ht
  rcases ht with rfl | rfl
  · exact hparent
  · exact hreceiver

theorem Alike.callee_eq {v : Value} (h : R.Alike m m') (hv : R.Sees v) :
    arity? m v = arity? m' v ∧ calleeName m v = calleeName m' v := by
  cases v with
  | function id =>
      have hid := sees_function.mp hv
      simp only [arity?, calleeName, h.functionArity_eq hid, h.functionQualifiedName_eq hid]
      exact ⟨trivial, trivial⟩
  | native id =>
      simp only [arity?, calleeName, h.native_eq (sees_native.mp hv)]
      exact ⟨trivial, trivial⟩
  | «class» id =>
      have hid := sees_class.mp hv
      obtain ⟨heq, hlive⟩ := h.findMethod?_eq "init" hid
      refine ⟨?_, h.className_eq hid⟩
      simp only [arity?, ← heq]
      cases hfound : m.findMethod? id "init" with
      | none => rfl
      | some method => simp only [Option.map_some, h.methodArity_eq (hlive method hfound)]
  | nil | boolean b | number x | string s | «instance» id | list id | map id => exact ⟨rfl, rfl⟩

theorem lawful (R : Realm) : R.simulation.Lawful where
  beside_refl _ := trivial
  beside_trans _ _ := trivial
  value_plain := sees_of_isPlain
  current hk h := ⟨h.current hk, h.current' hk⟩
  frames h := h.alike.frames
  loop := Iff.rfl
  enter {k p m m' bindings} hk hm hb := by
    rw [hm.current hk, hm.current' hk]
    cases hk
    have hn := hm.alike.enter (hm.live rfl) fun b h => (hb b h).2
    refine ⟨_, hn, fun r o o' _ ho => ?_⟩
    exact hm.leave ho
  copy {k p m m'} hk hm := by
    cases hk
    refine ⟨m.scopes.all.size, trivial, ?_⟩
    simp only [Machine.enterCopy, Scopes.copy, hm.current rfl, hm.current' rfl,
      ← hm.alike.scope_eq (hm.live rfl)]
    refine hm.alike.createScope fun t ht => ?_
    rcases List.mem_append.mp ht with ht | ht
    · obtain ⟨parent, hparent, rfl⟩ := List.mem_map.mp ht
      exact hm.alike.live_parent (hm.live rfl) (by simpa using hparent)
    · obtain ⟨b, hb, ht⟩ := List.mem_flatMap.mp ht
      exact hm.alike.sees_binding (hm.live rfl) hb t ht
  call {k p m m'} frame hm := by
    refine ⟨p, ⟨?_, hm.current, hm.current', hm.live⟩,
      fun n n' hn => ⟨?_, hn.current, hn.current', hn.live⟩⟩
    · exact hm.alike.of_eq (fun _ => rfl) (fun _ => rfl) (congrArg (frame :: ·) hm.alike.frames)
        hm.alike.output hm.alike.clock
    · exact hn.alike.of_eq (fun _ => rfl) (fun _ => rfl) (congrArg List.tail hn.alike.frames)
        hn.alike.output hn.alike.clock
  callee hv hm := hm.alike.callee_eq hv
  function hid hm := hm.alike.function_eq (sees_function.mp hid)
  bound hid hm hf := by
    obtain ⟨hreceiver, hmethod⟩ := hm.alike.live_bound (sees_function.mp hid) hf
    exact ⟨sees_instance.mpr hreceiver, hmethod⟩
  closure {k p m m' id name params body scope arguments} hid hm hf harguments := by
    have hscope : R.live ⟨.scopes, scope⟩ :=
      hm.alike.live_function (sees_function.mp hid) hf (by simp [Object.refs])
    exact ⟨true, _, rfl, hm.alike.enter hscope (sees_parameterBindings harguments),
      fun _ _ _ _ hn => hm.leave hn⟩
  findMethod name hid hm := hm.alike.findMethod?_eq name (sees_class.mp hid)
  methods hid hm := hm.alike.method_eq hid
  methodBody {k p m m' id f receiver arguments} hid hreceiver hm hf harguments := by
    have hscope : R.live ⟨.scopes, f.scope⟩ := hm.alike.live_method hid hf (by simp [Object.refs])
    have hthis := hm.alike.bindThis hscope (sees_instance.mp hreceiver)
    have hnew : (m.newScope f.scope).1 = (m'.newScope f.scope).1 := hm.alike.count_eq .scopes
    rw [← hnew]
    exact ⟨true, _, rfl,
      hthis.enter (hm.alike.live_count .scopes) (sees_parameterBindings harguments),
      fun _ _ _ _ hn => hm.leave hn⟩
  newInstance {k p m m' id} hid hm :=
    ⟨hm.alike.count_eq .instances, sees_instance.mpr (hm.alike.live_count .instances),
      hm.puts_new (m.puts_newInstance id) (m'.puts_newInstance id)
        (by simpa [Object.refs] using sees_class.mp hid)⟩
  native hid harguments := safe_callNative (sees_native.mp hid) harguments
  lookup he := by
    cases he
    exact safe_lookup _
  this he := by
    cases he
    exact safe_lookup _
  super he := by
    cases he
    exact safe_evaluateSuper _
  assign he hv := by
    cases he
    exact safe_assign _ hv
  makeClosure he := by
    cases he
    exact safe_makeClosure _ _ _
  property name _ hobject := safe_property hobject name
  setField name _ hid hv := safe_setField (sees_instance.mp hid) name hv
  item _ hobject _ := safe_item hobject _
  setItem _ hobject _ hv := safe_setItem hobject _ hv
  newList _ hvs := safe_newList fun _ _ _ => ⟨rfl, fun v hv => hvs v (by simpa using hv)⟩
  newMap _ := safe_newMap
  text hv hm := hm.alike.text_eq hv
  print {k p m m'} line _ hm := by
    simp only [String.append_assoc]
    exact hm.output (line ++ "\n")
  lastValue _ _ hm :=
    ⟨hm.alike.of_eq (fun _ => rfl) (fun _ => rfl) hm.alike.frames hm.alike.output hm.alike.clock,
      hm.current, hm.current', hm.live⟩
  dump hs := by
    cases hs
    exact safe_dumpBindings.conclude fun _ h => h ▸ trivial
  declare hs hv := by
    cases hs
    exact safe_define _ hv _
  declareFunction hs := by
    cases hs
    exact (safe_declareFunction _).conclude fun _ h => h ▸ trivial
  defineClass hs _ hparent := by
    cases hs
    exact (safe_defineClass _ (fun id hid => sees_class.mp (hparent id hid)) _).conclude
      fun _ h => h ▸ trivial

section Call

variable (limits : Limits) (room : Nat)

/-- A call with live references ends alike on machines that are alike. -/
theorem Alike.callValue
    {callee : Value} {arguments : List Value}
    (h : R.Alike m m')
    (hcallee : R.Sees callee)
    (harguments : ∀ v ∈ arguments, R.Sees v)
    (site : Option Span) :
    Outcome.Agree R.Alike R.Sees (Interruption.Carries R.Sees)
      (callValue limits (.ofRoom limits room) callee arguments site m)
      (callValue limits (.ofRoom limits room) callee arguments site m') := by
  -- no code of the caller runs, so its scope need be neither the same on both machines nor live
  have hm : R.simulation.rel false m.current m m' := ⟨h, nofun, nofun, nofun⟩
  refine Outcome.Agree.weaken ?_ (fun n n' (hn : R.simulation.rel false m.current n n') => hn.alike)
    fun _ hv => hv
  exact Simulation.callValue_keeps limits (lawful R) ((lawful R).ofRoom limits room) hcallee
    harguments m m' hm

end Call

/-- The realm of what can be reached on a machine, and of what is not in use yet. -/
def around (roots : List Ref) (m m' : Machine) : Realm where
  live r := m.Reaches roots r ∨ m.object? r = none
  first := m
  second := m'
  fresh _ h := .inr h

theorem alike_around
    {roots : List Ref}
    (hframes : m.frames = m'.frames)
    (houtput : m.output = m'.output)
    (hclock : ∀ k, m.clock (m.readings + k) = m'.clock (m'.readings + k))
    (huses : ∀ r, (m.object? r).isSome = (m'.object? r).isSome)
    (hagree : ∀ r, m.Reaches roots r → m.object? r = m'.object? r) :
    (around roots m m').Alike m m' where
  frames := hframes
  output := houtput
  clock := hclock
  uses := huses
  grown _ h := h
  agree r hr := by
    rcases hr with hr | hr
    · exact hagree r hr
    · have huse := huses r
      simp only [hr, Option.isSome_none] at huse
      rw [hr, Option.isSome_eq_false_iff.mp huse.symm |> Option.isNone_iff_eq_none.mp]
  closed r o hr ho t ht := by
    rcases hr with hr | hr
    · exact .inl (.inside hr ho ht)
    · rw [hr] at ho
      cases ho
  untouched _ _ := rfl
  untouched' _ _ := rfl

end Realm

/-- Where the objects begin that a call can reach: the callee, the arguments and the built-in
functions. -/
def callRoots (callee : Value) (arguments : List Value) : List Ref :=
  ⟨.scopes, Machine.builtinScope⟩ :: (callee.refs ++ arguments.flatMap Value.refs)

theorem sees_callRoots (callee : Value) (arguments : List Value) (m m' : Machine) :
    (Realm.around (callRoots callee arguments) m m').Sees callee ∧
      ∀ v ∈ arguments, (Realm.around (callRoots callee arguments) m m').Sees v := by
  refine ⟨fun r hr => .inl (.root ?_), fun v hv r hr => .inl (.root ?_)⟩
  · exact List.mem_cons_of_mem _ (List.mem_append_left _ hr)
  · refine List.mem_cons_of_mem _ (List.mem_append_right _ ?_)
    exact List.mem_flatMap.mpr ⟨v, hv, hr⟩

/-- Two calls on machines with the same active calls, output and clock that agree on what can be
reached and on what is in use: both end alike, with the same output; they leave the same objects
where the call could reach and where nothing was in use before, and leave all other objects alone.
-/
theorem call_noninterference
    (limits : Limits)
    (room : Nat)
    (callee : Value)
    (arguments : List Value)
    (site : Option Span)
    (m m' : Machine)
    (hframes : m.frames = m'.frames)
    (houtput : m.output = m'.output)
    (hclock : ∀ k, m.clock (m.readings + k) = m'.clock (m'.readings + k))
    (huses : ∀ r, (m.object? r).isSome = (m'.object? r).isSome)
    (hagree : ∀ r, m.Reaches (callRoots callee arguments) r → m.object? r = m'.object? r) :
    let o := Eval.callValue limits (.ofRoom limits room) callee arguments site m
    let o' := Eval.callValue limits (.ofRoom limits room) callee arguments site m'
    o.ending = o'.ending ∧
      o.machine.output = o'.machine.output ∧
      (∀ r, (o.machine.object? r).isSome = (o'.machine.object? r).isSome) ∧
      (∀ r, m.Reaches (callRoots callee arguments) r ∨ m.object? r = none →
        o.machine.object? r = o'.machine.object? r) ∧
      ∀ r, ¬m.Reaches (callRoots callee arguments) r → m.object? r ≠ none →
        o.machine.object? r = m.object? r ∧ o'.machine.object? r = m'.object? r := by
  intro o o'
  have hstart := Realm.alike_around hframes houtput hclock huses hagree
  obtain ⟨hcallee, harguments⟩ := sees_callRoots callee arguments m m'
  have hcall := hstart.callValue limits room hcallee harguments site
  have hend := hcall.machine_related
  refine ⟨hcall.ending_eq, hend.output, hend.uses, hend.agree, fun r hr hused => ?_⟩
  have hlive : ¬(Realm.around (callRoots callee arguments) m m').live r := not_or.mpr ⟨hr, hused⟩
  exact ⟨hend.untouched r hlive, hend.untouched' r hlive⟩

section Locals

/-- A machine on which a function that prints `x` is about to be called from a scope that binds
`x`. The function was made in the global scope, so it does not see that binding. -/
def Machine.withLocal (v : Value) : Machine :=
  let span : Span := ⟨0, 0, 0, Int.le_refl 0⟩
  { (Machine.initial fun _ => 0).enter Machine.globalScope [⟨"x", v, false⟩] with
    functions := #[.closure "f" [] [.print (.reference "x" span) span] Machine.globalScope] }

theorem Machine.reaches_withLocal
    {r : Ref}
    (h : (Machine.withLocal .nil).Reaches (callRoots (.function 0) []) r) :
    r ∈ ([⟨.scopes, Machine.builtinScope⟩, ⟨.scopes, Machine.globalScope⟩, ⟨.functions, 0⟩,
      ⟨.natives, 0⟩, ⟨.natives, 1⟩, ⟨.natives, 2⟩, ⟨.natives, 3⟩] : List Ref) :=
  Machine.Reaches.mem (by decide) (by decide) h

theorem call_noninterference_withLocal :
    let call (v : Value) := Eval.callValue ⟨512, false, 100⟩ (.ofRoom ⟨512, false, 100⟩ 100)
      (.function 0) [] none (Machine.withLocal v)
    (call .nil).ending = (call (.boolean true)).ending ∧
      (call .nil).machine.object? ⟨.scopes, 2⟩ = (Machine.withLocal .nil).object? ⟨.scopes, 2⟩ := by
  intro call
  have hagree (r : Ref) (hr : (Machine.withLocal .nil).Reaches (callRoots (.function 0) []) r) :
      (Machine.withLocal .nil).object? r = (Machine.withLocal (.boolean true)).object? r := by
    have hr := Machine.reaches_withLocal hr
    simp only [List.mem_cons, List.not_mem_nil, or_false] at hr
    rcases hr with rfl | rfl | rfl | rfl | rfl | rfl | rfl <;> rfl
  have hother : ¬(Machine.withLocal .nil).Reaches (callRoots (.function 0) []) ⟨.scopes, 2⟩ :=
    fun hr => absurd (Machine.reaches_withLocal hr) (by decide)
  obtain ⟨hending, -, -, -, hleft⟩ :=
    call_noninterference ⟨512, false, 100⟩ 100 (.function 0) [] none (Machine.withLocal .nil)
      (Machine.withLocal (.boolean true)) rfl rfl (fun _ => rfl)
      (Machine.uses_eq fun store => by cases store <;> rfl) hagree
  exact ⟨hending, (hleft ⟨.scopes, 2⟩ hother nofun).1⟩

/-- A binding of a scope that the call cannot reach, such as a local variable of the caller that
no closure has captured, neither influences a call nor is changed by it. -/
theorem call_of_not_reaches
    (limits : Limits)
    (room : Nat)
    (callee : Value)
    (arguments : List Value)
    (site : Option Span)
    (m : Machine)
    (scope : ScopeId)
    (b : Binding)
    (hscope : ¬m.Reaches (callRoots callee arguments) ⟨.scopes, scope⟩)
    (hused : m.object? ⟨.scopes, scope⟩ ≠ none) :
    let o := Eval.callValue limits (.ofRoom limits room) callee arguments site m
    let o' := Eval.callValue limits (.ofRoom limits room) callee arguments site (m.define scope b)
    o.ending = o'.ending ∧ o.machine.output = o'.machine.output ∧
      o.machine.scopes.get scope = m.scopes.get scope := by
  intro o o'
  have huses (store : Store) : m.count store = (m.define scope b).count store := by
    cases store <;> simp [Machine.count, Machine.define, Scopes.define]
  have hagree (r : Ref) (hr : m.Reaches (callRoots callee arguments) r) :
      m.object? r = (m.define scope b).object? r := by
    have hne : r ≠ ⟨.scopes, scope⟩ := fun heq => hscope (heq ▸ hr)
    rw [(m.puts_define scope b).object, if_neg hne]
  have hstart :
      (Realm.around (callRoots callee arguments) m (m.define scope b)).Alike m (m.define scope b) :=
    Realm.alike_around rfl rfl (fun _ => rfl) (Machine.uses_eq huses) hagree
  obtain ⟨hcallee, harguments⟩ := sees_callRoots callee arguments m (m.define scope b)
  have hcall := hstart.callValue limits room hcallee harguments site
  have hobject := hcall.machine_related.untouched ⟨.scopes, scope⟩ (not_or.mpr ⟨hscope, hused⟩)
  have hall : o.machine.scopes.all[scope]? = m.scopes.all[scope]? :=
    Option.map_injective (fun _ _ => Object.scope.inj) hobject
  exact ⟨hcall.ending_eq, hcall.machine_related.output, by simp only [Scopes.get, hall]⟩

end Locals

end Lox
