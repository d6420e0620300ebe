import Lox.Proofs.Classes.Residence
import Lox.Proofs.Context
import Lox.Proofs.Journal.Growth
import Lox.Proofs.Journal.Run
import Lox.Proofs.Lineage

/-!
# Classes are fixed, and `super` is static

A superclass is older than its subclasses, so the chain from a class upward comes to an end.
`Machine.findMethod?` finds the method of the nearest class on it that declares the name. Classes
are never changed, so a class always has the same methods, its own and those it inherits. A
reference to `super` goes by the class that declares the method in which it stands.
-/

namespace Lox

namespace Machine

/-- The method is the one of the nearest class that declares the name, on the way from the class
through its superclasses. -/
inductive NearestMethod (m : Machine) (name : String) : ClassId → MethodId → Prop
  | own {id : ClassId} {c : ClassObject} {method : MethodId} :
      m.classes[id]? = some c → c.methods.lookup name = some method → NearestMethod m name id method
  | inherited {id parent : ClassId} {c : ClassObject} {method : MethodId} :
      m.classes[id]? = some c → c.methods.lookup name = none → c.superclass = some parent →
      NearestMethod m name parent method → NearestMethod m name id method

section Chain

variable {m n : Machine} {name : String} {id parent : ClassId} {c : ClassObject}

theorem findMethod?_of_own
    {method : MethodId}
    (hc : m.classes[id]? = some c)
    (hown : c.methods.lookup name = some method) :
    m.findMethod? id name = some method := by
  rw [findMethod?]
  simp [hc, hown]

theorem findMethod?_of_inherited
    (hc : m.classes[id]? = some c)
    (hown : c.methods.lookup name = none)
    (hparent : c.superclass = some parent)
    (hlt : parent < id) :
    m.findMethod? id name = m.findMethod? parent name := by
  rw [findMethod?]
  simp [hc, hown, hparent, hlt]

theorem nearestMethod_of_findMethod?
    {method : MethodId}
    (h : m.findMethod? id name = some method) :
    m.NearestMethod name id method := by
  induction id using Nat.strongRecOn with
  | ind id ih =>
      rw [findMethod?] at h
      split at h
      · cases h
      · next c hc =>
          split at h
          · next found hown =>
              cases h
              exact .own hc hown
          · next hown =>
              split at h
              · cases h
              · next parent hparent =>
                  split at h
                  · next hlt => exact .inherited hc hown hparent (ih parent hlt h)
                  · cases h

/-- If all superclasses are older, the search gets to the nearest class that declares the name. -/
theorem Knows.findMethod?_eq_some_iff {held : List Value} {method : MethodId} (hm : m.Knows held) :
    m.findMethod? id name = some method ↔ m.NearestMethod name id method := by
  refine ⟨nearestMethod_of_findMethod?, fun h => ?_⟩
  induction h with
  | own hc hown => exact findMethod?_of_own hc hown
  | inherited hc hown hparent _ ih =>
      rw [findMethod?_of_inherited hc hown hparent (hm.older _ _ _ hc hparent)]
      exact ih

/-- The chain of superclasses ends. -/
theorem Knows.wellFounded {held : List Value} (hm : m.Knows held) :
    WellFounded fun parent id => ∃ c : ClassObject, m.classes[id]? = some c ∧
      c.superclass = some parent :=
  Subrelation.wf (fun ⟨c, hc, hparent⟩ => hm.older _ c _ hc hparent) Nat.lt_wfRel.wf

/-- The answer for a class stays the same. -/
theorem Grows.findMethod?_eq (h : m.Grows n) (name : String) (hc : m.classes[id]? = some c) :
    n.findMethod? id name = m.findMethod? id name := by
  induction id using Nat.strongRecOn generalizing c with
  | ind id ih =>
      have hc' := h.classes hc
      cases hown : c.methods.lookup name with
      | some method => rw [findMethod?_of_own hc hown, findMethod?_of_own hc' hown]
      | none =>
          rw [findMethod?, findMethod?]
          simp only [hc, hc', hown]
          cases hparent : c.superclass with
          | none => rfl
          | some parent =>
              by_cases hlt : parent < id
              · obtain ⟨hid, -⟩ := Array.getElem?_eq_some_iff.mp hc
                have hc₀ := Array.getElem?_eq_getElem (Nat.lt_trans hlt hid)
                simpa only [if_pos hlt] using ih parent hlt hc₀
              · simp only [if_neg hlt]

end Chain

end Machine

/-- A session may run its next program on the machine, and its classes and methods are in order. -/
structure Machine.Established (m : Machine) : Prop where
  ready : m.Ready
  housed : m.Housed
  knows : m.Knows []

section Sessions

theorem Machine.established_initial (clock : Nat → Float) : (Machine.initial clock).Established :=
  ⟨.initial clock, housed_initial clock, knows_initial clock⟩

/-- The place where the statements of a program run. -/
theorem Machine.Established.shelters {m : Machine} (h : m.Established) :
    Residence.Shelters none ⟨m, globalScope⟩ m where
  current := h.ready.atTop.2
  inRange := h.ready.inRange
  housed := h.housed
  evolved := .refl m
  hosts := nofun

theorem Machine.Established.takeOutput {m : Machine} (h : m.Established) :
    m.takeOutput.2.Established where
  ready := h.ready.takeOutput
  housed := h.housed.of_scopes (.of_eq rfl rfl rfl) rfl rfl rfl
  knows := h.knows.of_eq (fun _ => rfl) rfl

variable {program : Program} (limits : Limits) (echo : Bool) {m : Machine}

theorem Program.belongs_of_placed (hprogram : ∀ s ∈ program.statements, s.Placed .outermost) :
    ∀ s ∈ program.statements, s.BelongsTo none :=
  fun s hs => .of_placed (hprogram s hs) rfl

theorem Program.established_run
    (hprogram : ∀ s ∈ program.statements, s.Placed .outermost)
    (hm : m.Established) :
    (program.run limits echo m).2.Established := by
  obtain ⟨hstore, -⟩ := program.sameStore_run limits echo m
  have hhoused : (program.recorded limits echo m).1.machine.Housed := by
    rw [program.recorded_outcome]
    exact (Residence.lawful.runStatements_holds limits _ echo
      (program.belongs_of_placed hprogram) hm.shelters).housed
  refine ⟨program.ready_run hprogram limits echo hm.ready, ?_,
    ((program.knows limits echo m hm.knows).2).sameStore hstore⟩
  rw [hstore]
  exact hhoused.of_scopes (.of_eq rfl rfl rfl) rfl rfl rfl

/-- Machines of a run, in the order of time. -/
def Program.states (program : Program) (limits : Limits) (echo : Bool) (m : Machine) :
    List Machine :=
  m :: ((program.journal limits echo m).map Event.machine ++ [(program.run limits echo m).2])

theorem Program.pairwise_states (program : Program) (m : Machine) :
    (program.states limits echo m).Pairwise Machine.Grows := by
  obtain ⟨hstore, -⟩ := program.sameStore_run limits echo m
  have hgrowing := (program.accounted limits echo m).growing.append (.done hstore.grows)
  rw [List.append_nil] at hgrowing
  exact hgrowing.pairwise

theorem Program.knows_states (hm : m.Knows []) :
    ∀ n ∈ program.states limits echo m, n.Knows [] := by
  obtain ⟨hevents, hlast⟩ := program.knows limits echo m hm
  obtain ⟨hstore, -⟩ := program.sameStore_run limits echo m
  intro n hn
  rcases List.mem_cons.mp hn with rfl | hn
  · exact hm
  rcases List.mem_append.mp hn with hn | hn
  · obtain ⟨e, he, rfl⟩ := List.mem_map.mp hn
    exact hevents e he
  · rw [List.mem_singleton.mp hn]
    exact hlast.sameStore hstore

theorem Session.established_after
    (inputs : List (String × String × Bool))
    (s : Session)
    (hs : s.machine.Established) :
    (s.after inputs).machine.Established :=
  s.machine_after
    (fun hprogram limits echo _ hm =>
      Program.established_run limits echo (Program.placed_of_ofText hprogram) hm)
    (fun _ hm => hm.takeOutput) inputs hs

/-- Later sources add to the classes and methods of a session. -/
theorem Session.grows_after (inputs : List (String × String × Bool)) (s : Session) :
    s.machine.Grows (s.after inputs).machine := by
  refine s.machine_after (P := fun n => s.machine.Grows n)
    (fun {_ _ _ program} _ limits echo m hm => ?_) (fun _ hm => hm.trans (.of_eq rfl rfl)) inputs
    (.refl _)
  exact hm.trans (List.rel_of_pairwise_cons (program.pairwise_states limits echo m) (by simp))

end Sessions

/-- The method is running on the instance: the current scope belongs to a call of it. -/
def Machine.IsRunning (m : Machine) (f : MethodObject) (receiver : InstanceId) : Prop :=
  f ∈ m.methods ∧ m.scopes.InCall f.scope receiver m.current

/-- In the current scope, `super` in this expression belongs to the class and to the instance: a
method that the class declares is running on the instance, and the expression stands in its body.
This is true of no other class or instance. -/
structure Machine.RefersTo
    (m : Machine)
    (e : Expr)
    (owner : ClassId)
    (receiver : InstanceId) :
    Prop where
  exists_running : ∃ f, m.IsRunning f receiver ∧ e.StandsIn f.body ∧ f.owner = owner
  unique : ∀ f receiver', m.IsRunning f receiver' → e.StandsIn f.body →
    f.owner = owner ∧ receiver' = receiver

/-- Wherever `super` is evaluated, it stands in the body of a method that is running, and it stands
for the superclass of the class that declares this method. -/
theorem Residence.Shelters.super
    {h : Option Home} {p : Residence} {n : Machine} {name : String} {span : Span}
    (hn : p.Shelters h n)
    (he : (Expr.super name span).BelongsTo h) :
    ∃ owner c parent receiver, n.RefersTo (.super name span) owner receiver ∧
      n.classes[owner]? = some c ∧ c.superclass = some parent ∧
      n.scopes.value n.current "this" = .ok (.instance receiver) ∧
      n.scopes.value n.current "super" = .ok (.class parent) := by
  obtain ⟨body, rfl, hstands⟩ := he.of_super
  obtain ⟨f, hf, c, receiver, howner, heq, hcall⟩ := hn.current_hosts _ rfl
  obtain ⟨rfl, hsuperclass⟩ := Home.mk.inj heq
  obtain ⟨parent, hparent⟩ := Option.isSome_iff_exists.mp hsuperclass.symm
  obtain ⟨c', hdeclares⟩ := hn.housed.methods f hf
  obtain rfl : c = c' := Option.some.inj (howner.symm.trans hdeclares.owner)
  refine ⟨f.owner, c, parent, receiver, ⟨⟨f, ⟨hf, hcall⟩, hstands, rfl⟩, ?_⟩, howner, hparent,
    hcall.value_this, hcall.value_super (hdeclares.super parent hparent)⟩
  rintro g receiver' ⟨hg, hcall'⟩ hstands'
  obtain ⟨d, hdeclares'⟩ := hn.housed.methods g hg
  obtain ⟨hscope, rfl⟩ := hcall'.unique hcall
  -- the class of the other method has a superclass, too, since `super` stands in its body
  obtain ⟨body', hhome, -⟩ := (hstands'.belongsTo hdeclares'.body).of_super
  have hd : d.superclass.isSome = true :=
    congrArg Home.hasSuperclass (Option.some.inj hhome)
  exact ⟨hn.housed.apart g hg f hf ⟨d, hdeclares'.owner, hd⟩ ⟨c, howner, hsuperclass.symm⟩ hscope,
    rfl⟩

/-- **Classes are fixed, and `super` is static.** Take any program that is accepted in a session,
after any sources and with any options, and the states of its run in their order: the machines of
all events of the journal, which is that of the very run, the machine before and the one after.

In every state all superclasses are older than their subclasses, so that the chain of superclasses
comes to an end, and the search for a method gets to the nearest class on it that declares the name.
From each state to all later ones, and from each session to what becomes of it after more sources,
no class and no method changes, and neither does the answer to the search for a method.

When `super.name` is evaluated, it stands in the body of a method that is running: the current scope
belongs to a call of it, on one instance. All such methods are declared by one class. The answer is
the method that the search finds for the superclass of this class, bound to the instance. The class
of the instance has no part in this, nor have the names of the classes. The table of a class lists
methods that the class itself declares. -/
theorem classes_fixed_super_static
    (options : Options)
    (fuel : Nat)
    (terminal : Bool)
    (sources : SourceMap)
    (clock : Nat → Float)
    (inputs : List (String × String × Bool))
    (file : Nat)
    (text : List Char)
    (program : Program)
    (echo : Bool)
    (hprogram : Program.ofText file text options.collectAll = .ok program) :
    let s := (Session.new options fuel terminal sources clock).after inputs
    let states := program.states s.limits echo s.machine
    (program.recorded s.limits echo s.machine).1 =
      Eval.runStatements (.ofRoom s.limits (Evaluator.roomFor s.limits.maxCallDepth)) echo
        program.statements s.machine ∧
    (∀ n ∈ states,
      (∀ (id : ClassId) (c : ClassObject) (parent : ClassId),
        n.classes[id]? = some c → c.superclass = some parent → parent < id) ∧
      (WellFounded fun parent id =>
        ∃ c : ClassObject, n.classes[id]? = some c ∧ c.superclass = some parent) ∧
      ∀ id name method, n.findMethod? id name = some method ↔ n.NearestMethod name id method) ∧
    (states.Pairwise fun n n' => n.Grows n' ∧
      ∀ (id : ClassId) (c : ClassObject) (name : String), n.classes[id]? = some c →
        n'.findMethod? id name = n.findMethod? id name) ∧
    (∀ (t : Session) (later : List (String × String × Bool)),
      t.machine.Grows (t.after later).machine ∧
      ∀ (id : ClassId) (c : ClassObject) (name : String), t.machine.classes[id]? = some c →
        (t.after later).machine.findMethod? id name = t.machine.findMethod? id name) ∧
    (∀ name span n,
      .began (.evaluate (.super name span)) n ∈ program.journal s.limits echo s.machine →
      (∀ (id : ClassId) (c : ClassObject), n.classes[id]? = some c →
        ListsOwn n.methods id c.methods) ∧
      ∃ owner c parent receiver, n.RefersTo (.super name span) owner receiver ∧
        n.classes[owner]? = some c ∧ c.superclass = some parent ∧
        n.scopes.value n.current "this" = .ok (.instance receiver) ∧
        ∀ room, (Evaluator.ofRoom s.limits (room + 1)).evaluate (.super name span) n =
          match n.findMethod? parent name with
          | some method =>
              .done (.function n.functions.size) (n.newFunction (.bound receiver method)).2
          | none =>
              let fault := Fault.undefinedSuperMethod name
              .stopped (.failed ⟨fault, some (span, fault.message), []⟩) n) := by
  intro s states
  have hplaced := Program.placed_of_ofText hprogram
  have hs : s.machine.Established :=
    Session.established_after inputs _ (Machine.established_initial clock)
  refine ⟨program.recorded_outcome s.limits echo s.machine, fun n hn => ?_, ?_,
    fun t later => ⟨t.grows_after later, fun id c name hc => ?_⟩, fun name span n hbegan => ?_⟩
  · have hknows := Program.knows_states s.limits echo hs.knows n hn
    exact ⟨hknows.older, hknows.wellFounded, fun _ _ _ => hknows.findMethod?_eq_some_iff⟩
  · refine (program.pairwise_states s.limits echo s.machine).imp fun {n n'} hgrows => ?_
    exact ⟨hgrows, fun id c name hc => hgrows.findMethod?_eq name hc⟩
  · exact (t.grows_after later).findMethod?_eq name hc
  · obtain ⟨room, hvisits⟩ := program.visits_of_began s.limits echo s.machine hbegan
    obtain ⟨h, p, hsuper, hn⟩ := Residence.lawful.visits
      (Program.belongs_of_placed hplaced) hs.shelters hvisits
    obtain ⟨owner, c, parent, receiver, hrefers, howner, hparent, hthis, hvalue⟩ := hn.super hsuper
    exact ⟨hn.housed.tables, owner, c, parent, receiver, hrefers, howner, hparent, hthis,
      fun room => evaluate_super_eq hthis hvalue s.limits room name span⟩

theorem classes_fixed_super_static_closure :
    let source := "class A { m() { return true; } }
      class B < A { m() { fun f() { return super.m(); } return f; } }
      var f = B().m();
      class A { m() { return false; } }
      print f();"
    let s := (Session.new .default 100 false (.empty "" false) fun _ => 0).after []
    ∃ program, Program.ofText 0 source.toList true = .ok program ∧
      (program.run s.limits false s.machine).2.output = "true\n" ∧
      ∀ name span n,
        .began (.evaluate (.super name span)) n ∈ program.journal s.limits false s.machine →
        ∃ owner receiver, n.RefersTo (.super name span) owner receiver := by
  intro source s
  have hrun : (Program.ofText 0 source.toList true).toOption.map
      (fun program => (program.run s.limits false s.machine).2.output) = some "true\n" := by
    decide +kernel
  cases hprogram : Program.ofText 0 source.toList true with
  | error errors =>
      rw [hprogram] at hrun
      cases hrun
  | ok program =>
      rw [hprogram] at hrun
      obtain ⟨-, -, -, -, hsuper⟩ := classes_fixed_super_static .default 100 false
        (.empty "" false) (fun _ => 0) [] 0 source.toList program false hprogram
      refine ⟨program, rfl, Option.some.inj hrun, fun name span n hbegan => ?_⟩
      obtain ⟨-, owner, c, parent, receiver, hrefers, -⟩ := hsuper name span n hbegan
      exact ⟨owner, receiver, hrefers⟩

end Lox
