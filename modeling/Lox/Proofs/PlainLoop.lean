import Lox.Proofs.Context
import Lox.Proofs.Renumbering.Step

/-!
# The copies that a `for` statement makes

A `for` statement gives every iteration a copy of the scope that its first clause is executed in.
The plain loop does without copies: all iterations share the one scope. Only a function that is made
inside the loop can tell the difference. In other loops each copy takes the place that the scope of
the plain loop has, and the one before it is given up.
-/

namespace Lox

/-- The same scope is current. -/
def Machine.SameScope (m n : Machine) : Prop :=
  n.current = m.current

instance : IsPreorder Machine Machine.SameScope where
  refl _ := rfl
  trans _ _ _ h h' := Eq.trans h' h

namespace Eval

section PlainLoop

variable (g : Evaluator)

/-- The plain loop: as long as the condition holds, the body is executed in a scope of its own, and
then the increment is evaluated. Nothing is evaluated any more when the fuel is used up. -/
def plainLoop (condition increment : Option Expr) (body : Stmt) : Nat → Eval Signal
  | 0 => stop .outOfFuel
  | fuel + 1 => do
      if ← holds g condition then
        match ← loopBody g body with
        | .normal => do
            advance g (fuel == 0) increment
            plainLoop condition increment body fuel
        | .continued => do
            advance g (fuel == 0) increment
            plainLoop condition increment body fuel
        | .broke => return .normal
        | signal => return signal
      else
        return .normal

/-- A `for` statement as a plain loop, with one scope for the bindings of its first clause. -/
def plainFor
    (initial : Option Stmt)
    (condition increment : Option Expr)
    (body : Stmt)
    (fuel : Nat) :
    Eval Signal :=
  inInnerScope [] do
    match ← executeOptional g initial with
    | .normal => plainLoop g condition increment body fuel
    | signal => return signal

end PlainLoop

/-- The computation ends in the scope in which it starts. -/
abbrev Returning {α : Type} (c : Eval α) : Prop :=
  c.Steps Machine.SameScope

namespace Returning

section Code

variable (limits : Limits) (room : Nat)

theorem evaluate (e : Expr) : Returning ((Evaluator.ofRoom limits room).evaluate e) := by
  intro m
  have hm := Surroundings.intact_start (.shared fun _ => True) m (by simp)
  exact (hm.evaluate limits room e).current

theorem execute (s : Stmt) : Returning ((Evaluator.ofRoom limits room).execute s) := by
  intro m
  have hm := Surroundings.intact_start (.shared fun _ => True) m (by simp)
  exact (hm.execute limits room (s := s) (by simp [Region.allows])).current

theorem executeAll (statements : List Stmt) :
    Returning (Eval.executeAll (.ofRoom limits room) statements) := by
  induction statements with
  | nil => exact .pure _
  | cons s rest ih =>
      refine .bind (execute limits room s) fun signal => ?_
      cases signal with
      | normal => exact ih
      | returned | broke | continued | thrown => exact .pure _

theorem holds (condition : Option Expr) :
    Returning (Eval.holds (.ofRoom limits room) condition) := by
  cases condition with
  | none => exact .pure _
  | some e => exact .bind (evaluate limits room e) fun _ => .pure _

theorem advance (isFirst : Bool) (increment : Option Expr) :
    Returning (Eval.advance (.ofRoom limits room) isFirst increment) := by
  cases increment with
  | none => cases isFirst <;> exact .pure _
  | some e =>
      cases isFirst with
      | true => exact .pure _
      | false => exact .bind (evaluate limits room e) fun _ => .pure _

theorem executeOptional (initial : Option Stmt) :
    Returning (Eval.executeOptional (.ofRoom limits room) initial) := by
  cases initial with
  | none => exact .pure _
  | some s => exact execute limits room s

theorem loopBody (body : Stmt) : Returning (Eval.loopBody (.ofRoom limits room) body) := by
  intro m
  rw [Eval.loopBody, executeBlock, inInnerScope_apply]
  cases Eval.executeAll _ [body] (m.enter m.current []) <;> rfl

end Code

end Returning

end Eval

namespace Machine

/-- More scopes correspond perhaps than in `W`, and these two scopes are current. -/
def Beside (W : Pairing) (a b : ScopeId) (m m' : Machine) : Prop :=
  ∃ V, W.Within V ∧ m.Paired V m' ∧ m.current = a ∧ m'.current = b

/-- The machines are paired, and what functions could close over in `W` corresponds still. -/
def Following (W : Pairing) (m m' : Machine) : Prop :=
  ∃ V, (∀ {a b}, W.shared a b → V.shared a b) ∧ m.Paired V m'

variable {W : Pairing} {a b : ScopeId} {m m' : Machine}

theorem Beside.following (h : Beside W a b m m') : Following W m m' := by
  obtain ⟨V, hwithin, hm, -, -⟩ := h
  exact ⟨V, hwithin.shared, hm⟩

/-- A copy of an inner scope takes its place, in which the other machine is. -/
theorem Paired.enterCopy (h : m.Paired W m') (hab : W.inner a b) (hb : m'.current = b) :
    Beside ((W.before a).add .inner m.scopes.all.size b) m.scopes.all.size b
      (m.enterCopy a) m' := by
  refine ⟨_, .refl _, h.of_scopes ?_ (h.scopes.copyLeft hab) _ m'.current, rfl, hb⟩
  exact id

end Machine

namespace Eval

open Machine (Beside Following)

variable {W : Pairing} {a b : ScopeId}

theorem Equivariant.beside
    {α : Type} {c : Eval α}
    (hc : Equivariant .inner c)
    (hreturning : Returning c)
    (hab : W.inner a b) :
    Related (Beside W a b) (Beside W a b) (fun _ => True) (fun _ => True) c c := by
  rintro m m' ⟨V, hwithin, hm, rfl, rfl⟩
  have hends := hc.ends ⟨hm, Pairing.pairs_of_inner (hwithin.inner hab)⟩
  have hcurrent := hreturning m
  have hcurrent' := hreturning m'
  generalize c m = o, c m' = o' at hends hcurrent hcurrent'
  have hlater {n n' : Machine} (hn : n.Later .inner V n') (hc : n.current = m.current)
      (hc' : n'.current = m'.current) : Beside W m.current m'.current n n' := by
    obtain ⟨U, hU, hn⟩ := hn
    exact ⟨U, hwithin.trans hU, hn.paired, hc, hc'⟩
  cases hends with
  | done _ hn => exact .done trivial (hlater hn hcurrent hcurrent')
  | stopped _ hn => exact .stopped trivial (hlater hn hcurrent hcurrent')

section Loops

variable (limits : Limits) (room : Nat)
variable {condition increment : Option Expr} {body : Stmt}

theorem advance_true (g : Evaluator) (increment : Option Expr) :
    advance g true increment = pure () := by
  cases increment <;> rfl

/-- The iterations, each in a copy of its own, and the turns of the plain loop. -/
theorem forIterations_related
    (hcondition : ∀ e ∈ condition, e.ClosureFree)
    (hincrement : ∀ e ∈ increment, e.ClosureFree)
    (hbody : body.ClosureFree)
    (fuel : Nat)
    (isFirst : Bool)
    (W : Pairing)
    (a b : ScopeId)
    (hab : W.inner a b) :
    Related (Beside W a b) (Following W) (fun _ => True) (fun _ => True)
      (forIterations (.ofRoom limits room) condition increment body fuel isFirst a)
      (advance (.ofRoom limits room) (isFirst || fuel == 0) increment >>= fun _ =>
        plainLoop (.ofRoom limits room) condition increment body fuel) := by
  have hg := Evaluator.equivariant_ofRoom limits room
  induction fuel generalizing isFirst W a b with
  | zero =>
      rw [show (isFirst || 0 == 0) = true by simp, advance_true]
      exact fun m m' hm => .stopped trivial hm.following
  | succ fuel ih =>
      rw [show (isFirst || fuel + 1 == 0) = isFirst by simp]
      rintro m m' ⟨V, hwithin, hm, rfl, rfl⟩
      -- the new copy takes the place of the scope before it, and what is inside that is given up
      have hcopy := hm.enterCopy (hwithin.inner hab) rfl
      generalize hV : (V.before m.current).add .inner m.scopes.all.size m'.current = U at hcopy
      have hnew : U.inner m.scopes.all.size m'.current := hV ▸ .inr ⟨rfl, rfl⟩
      have hend (n n' : Machine) (hn : Following U n n') : Following W n n' := by
        obtain ⟨T, hshared, hn⟩ := hn
        exact ⟨T, fun hxy => hshared (hV ▸ hwithin.shared hxy), hn⟩
      have hstep {α : Type} {c : Eval α} (hc : Equivariant .inner c) (hreturning : Returning c) :=
        hc.beside hreturning hnew
      have hfollowing (n n' : Machine) (hn : Beside U m.scopes.all.size m'.current n n') :=
        hn.following
      have hnext := ih false U _ _ hnew
      refine ((hstep (hg.advance (fun e he _ => hincrement e he) isFirst)
        (.advance limits room isFirst increment)).andThen hfollowing (fun _ _ => ?_) _ _
        hcopy).weaken hend fun _ h => h
      refine (hstep (hg.holds fun e he _ => hcondition e he)
        (.holds limits room condition)).andThen hfollowing fun c _ => ?_
      split
      · refine (hstep (hg.loopBody fun _ => hbody)
          (.loopBody limits room body)).andThen hfollowing fun signal _ => ?_
        cases signal with
        | normal => exact hnext
        | continued => exact hnext
        | broke => exact fun _ _ hn => .done trivial hn.following
        | returned v => exact fun _ _ hn => .done trivial hn.following
        | thrown t => exact fun _ _ hn => .done trivial hn.following
      · exact fun _ _ hn => .done trivial hn.following

end Loops

end Eval

/-- Every scope that exists corresponds to itself and to no other. -/
def Pairing.diagonal (size : Nat) : Pairing where
  shared a b := a = b ∧ a < size
  inner _ _ := False

theorem Pairing.pairs_diagonal_iff {size : Nat} {l : Level} {a b : ScopeId} :
    (diagonal size).pairs l a b ↔ a = b ∧ a < size := by
  cases l with
  | shared => exact Iff.rfl
  | inner => exact or_iff_left id

/-- Scopes in which parents come first correspond to themselves. -/
theorem Scopes.paired_self
    {s : Scopes}
    (hsize : Machine.builtinScope < s.all.size)
    (hordered : ∀ id parent, (s.get id).parent = some parent → parent < id) :
    s.Paired (.diagonal s.all.size) s where
  builtin := ⟨rfl, hsize⟩
  inRange hab := by
    obtain ⟨rfl, hlt⟩ := Pairing.pairs_diagonal_iff.mp hab
    exact ⟨hlt, hlt⟩
  eq_iff hab hxy := by
    obtain ⟨rfl, -⟩ := Pairing.pairs_diagonal_iff.mp hab
    obtain ⟨rfl, -⟩ := Pairing.pairs_diagonal_iff.mp hxy
    exact Iff.rfl
  apart _ hinner := hinner
  bindings hab := by
    obtain ⟨rfl, -⟩ := Pairing.pairs_diagonal_iff.mp hab
    rfl
  linked {l a b} hab := by
    obtain ⟨rfl, hlt⟩ := Pairing.pairs_diagonal_iff.mp hab
    cases hparent : (s.get a).parent with
    | none => exact .outermost
    | some parent =>
        have hless := hordered a parent hparent
        exact .inside (Pairing.pairs_of_shared ⟨rfl, Nat.lt_trans hless hlt⟩) hless hless

namespace Machine

/-- The scopes that are referred to exist, and the scope around another one is older. -/
structure WellScoped (m : Machine) : Prop where
  current : m.current < m.scopes.all.size
  ordered : ∀ id parent, (m.scopes.get id).parent = some parent → parent < id
  functions : ∀ name params body scope,
    .closure name params body scope ∈ m.functions → scope < m.scopes.all.size
  methods : ∀ f ∈ m.methods, f.scope < m.scopes.all.size

/-- The machines differ in nothing but the numbers of scopes that there were not on the machine
`m`: the scopes from then are the same on both, and functions close over corresponding scopes. -/
structure SameSince (m n n' : Machine) : Prop where
  current : n.current = n'.current
  scopes : ∀ id < m.scopes.all.size, n.scopes.get id = n'.scopes.get id
  /-- New scopes correspond to new ones, and everything that is no scope, function or method is the
  same. -/
  paired : ∃ W : Pairing, (∀ id < m.scopes.all.size, W.shared id id) ∧ n.Paired W n'

variable {m n n' : Machine}

theorem wellScoped_of_suits {k : Enclosure} {p : Standpoint} (h : p.Suits k m) :
    m.WellScoped where
  current := h.current ▸ h.inRange
  ordered := h.sound.scopes.ordered
  functions _ _ _ _ hf := by
    obtain ⟨-, -, -, hscope, -⟩ := h.sound.functions _ hf
    exact hscope
  methods f hf := by
    obtain ⟨-, -, -, -, hscope, -⟩ := h.sound.methods f hf
    exact hscope

/-- A machine is paired with itself. -/
theorem WellScoped.paired_self (h : m.WellScoped) :
    m.Paired (.diagonal m.scopes.all.size) m where
  scopes := Scopes.paired_self (Nat.zero_lt_of_lt h.current) h.ordered
  functions := .refl_of fun f hf => by
    cases f with
    | closure name params body scope => exact .closure ⟨rfl, h.functions _ _ _ _ hf⟩
    | bound => exact .bound
  methods := .refl_of fun f hf => ⟨⟨rfl, h.methods f hf⟩, rfl⟩
  rest := rfl

/-- Scopes that correspond to themselves are the same. -/
theorem Paired.get_eq
    {W : Pairing} {size : Nat}
    (h : n.Paired W n')
    (hself : ∀ id < size, W.shared id id) :
    ∀ id < size, n.scopes.get id = n'.scopes.get id := by
  intro id hid
  have hpairs : W.pairs .shared id id := hself id hid
  have hlinked := h.scopes.linked hpairs
  have hbindings := h.scopes.bindings (Pairing.pairs_inner hpairs)
  generalize n.scopes.get id = scope, n'.scopes.get id = scope' at hlinked hbindings
  obtain ⟨parent, bindings⟩ := scope
  obtain ⟨parent', bindings'⟩ := scope'
  obtain rfl : bindings = bindings' := hbindings
  cases hlinked with
  | outermost => rfl
  | @inside p q hpq hp hq =>
      have hp' : W.pairs .shared p p := hself p (Nat.lt_trans hp hid)
      have heq := (h.scopes.eq_iff (Pairing.pairs_inner hp') (Pairing.pairs_inner hpq)).mp rfl
      rw [heq]

/-- Back in the scope from before. -/
theorem Following.sameSince
    {W : Pairing} {a : ScopeId}
    (h : Following W n n')
    (hself : ∀ id < m.scopes.all.size, W.shared id id) :
    SameSince m (n.leave a) (n'.leave a) := by
  obtain ⟨V, hshared, hn⟩ := h
  have hleft : (n.leave a).Paired V (n'.leave a) := hn.leave a a
  have hself' (id : ScopeId) (hid : id < m.scopes.all.size) := hshared (hself id hid)
  exact ⟨rfl, hleft.get_eq hself', V, hself', hleft⟩

end Machine

section Main

open Eval

/-- A `for` statement of code that makes no functions ends like the plain loop. -/
theorem executeFor_sameSince
    {initial : Option Stmt} {condition increment : Option Expr} {body : Stmt}
    {span : Span} {m : Machine}
    (limits : Limits)
    (room fuel : Nat)
    (hfree : (Stmt.forLoop initial condition increment body span).ClosureFree)
    (hm : m.WellScoped) :
    Outcome.Agree m.SameSince (fun _ => True) (fun _ => True)
      (executeFor (.ofRoom limits room) initial condition increment body fuel m)
      (plainFor (.ofRoom limits room) initial condition increment body fuel m) := by
  obtain ⟨-, hexpressions, hstatements⟩ := hfree
  have hinitial : ∀ s ∈ initial, s.ClosureFree :=
    fun s hs => hstatements s (by simp_all [Stmt.inner])
  have hcondition : ∀ e ∈ condition, e.ClosureFree :=
    fun e he => hexpressions e (by simp_all [Stmt.expressions])
  have hincrement : ∀ e ∈ increment, e.ClosureFree :=
    fun e he => hexpressions e (by simp_all [Stmt.expressions])
  have hbody : body.ClosureFree := hstatements body (by simp [Stmt.loopBody?])
  have hg := Evaluator.equivariant_ofRoom limits room
  have hstart := hm.paired_self.enter (l := .inner) (.inl ⟨rfl, hm.current⟩) []
  generalize hW : (Pairing.diagonal m.scopes.all.size).add .inner m.scopes.all.size
    m.scopes.all.size = W at hstart
  have hown : W.inner m.scopes.all.size m.scopes.all.size := hW ▸ .inr ⟨rfl, rfl⟩
  have hself : ∀ id < m.scopes.all.size, W.shared id id := fun id hid => hW ▸ ⟨rfl, hid⟩
  rw [executeFor, plainFor, inInnerScope_apply, inInnerScope_apply]
  refine Outcome.Agree.onMachine (R := Machine.Following W) ?_ fun n n' hn => hn.sameSince hself
  have hcurrent : (m.enter m.current []).current = m.scopes.all.size := by
    rw [Machine.enter_eq]
  refine (((hg.executeOptional fun s hs _ => hinitial s hs).beside
    (.executeOptional limits room initial) hown).andThen (fun _ _ hn => hn.following)
    fun signal _ => ?_) _ _ ⟨W, .refl W, hstart.paired, hcurrent, hcurrent⟩
  cases signal with
  | normal =>
      intro n n' hn
      have hloop := forIterations_related limits room hcondition hincrement hbody fuel true W
        _ _ hown n n' hn
      obtain ⟨-, -, -, hcurrent, -⟩ := hn
      rw [Bool.true_or, advance_true, ← hcurrent] at hloop
      exact hloop
  | broke => exact fun _ _ hn => .done trivial hn.following
  | continued => exact fun _ _ hn => .done trivial hn.following
  | returned v => exact fun _ _ hn => .done trivial hn.following
  | thrown t => exact fun _ _ hn => .done trivial hn.following

/-- Wherever a session comes, the scopes that are referred to exist. -/
theorem Session.wellScoped_of_visits
    {options : Options} {fuel : Nat} {terminal : Bool} {sources : SourceMap}
    {clock : Nat → Float} {inputs : List (String × String × Bool)}
    {file : Nat} {text : List Char} {program : Program} {echo : Bool}
    {room : Nat} {q : Question} {n : Machine}
    (hprogram : Program.ofText file text options.collectAll = .ok program)
    (h : ((Session.new options fuel terminal sources clock).after inputs).Visits program echo
      room q n) :
    n.WellScoped := by
  have hready := Session.ready_after inputs (Session.new options fuel terminal sources clock)
    (.initial clock)
  obtain ⟨k, p, -, hn⟩ :=
    Standpoint.lawful.visits (Program.placed_of_ofText hprogram) hready.suits h
  exact Machine.wellScoped_of_suits hn

/-- **The copies that a `for` statement makes are invisible.** On every machine that a session can
come to, and more generally on every well-scoped one, a `for` statement that makes no functions
ends exactly when the plain loop does, and in the same way: with the same signal, the same thrown
value or the same fault, and for the same lack of room or fuel. What they leave behind differs in
nothing but the numbers of new scopes. -/
theorem for_copies_invisible :
    (∀ (options : Options) (fuel : Nat) (terminal : Bool) (sources : SourceMap)
        (clock : Nat → Float) (inputs : List (String × String × Bool))
        (file : Nat) (text : List Char) (program : Program) (echo : Bool)
        (room : Nat) (q : Question) (m : Machine),
      Program.ofText file text options.collectAll = .ok program →
      ((Session.new options fuel terminal sources clock).after inputs).Visits program echo
        room q m →
      m.WellScoped) ∧
    (∀ (limits : Limits) (room fuel : Nat)
        (initial : Option Stmt) (condition increment : Option Expr) (body : Stmt) (span : Span)
        (m : Machine),
      (Stmt.forLoop initial condition increment body span).ClosureFree →
      m.WellScoped →
      let g := Evaluator.ofRoom limits room
      let copying := executeFor g initial condition increment body fuel m
      let plain := plainFor g initial condition increment body fuel m
      copying.ending = plain.ending ∧ copying.machine.output = plain.machine.output ∧
        m.SameSince copying.machine plain.machine) := by
  refine ⟨fun _ _ _ _ _ _ _ _ _ _ _ _ _ hprogram h => Session.wellScoped_of_visits hprogram h,
    fun limits room fuel initial condition increment body span m hfree hm => ?_⟩
  have hagree := executeFor_sameSince limits room fuel hfree hm
  obtain ⟨W, -, hpaired⟩ := hagree.machine_related.paired
  exact ⟨hagree.ending_eq, hpaired.output, hagree.machine_related⟩

theorem for_copies_invisible_switch :
    let span : Span := ⟨1, 0, 0, Int.le_refl 0⟩
    let initial := some (.declare "go" (some (.literal (.boolean true) span)) false span)
    let condition := some (.reference "go" span)
    let increment := some (.assign "go" (.literal (.boolean false) span) span)
    let body := .print (.reference "go" span) span
    let g := Evaluator.ofRoom ⟨1, false, 100⟩ 20
    let m := Machine.initial fun _ => 0
    let copying := executeFor g initial condition increment body 100 m
    let plain := plainFor g initial condition increment body 100 m
    m.WellScoped ∧ copying.ending.toOption = some .normal ∧ copying.machine.output = "true\n" ∧
      copying.ending = plain.ending ∧ copying.machine.output = plain.machine.output ∧
      m.SameSince copying.machine plain.machine := by
  intro span initial condition increment body g m copying plain
  let source := "for (var go = true; go; go = false) print go;"
  have hsource : (Program.ofText 0 source.toList true).toOption.map
      (fun program => program.statements.isEmpty) = some false := by
    decide +kernel
  have hscoped : m.WellScoped := by
    cases hprogram : Program.ofText 0 source.toList true with
    | error errors =>
        rw [hprogram] at hsource
        cases hsource
    | ok program =>
        rw [hprogram] at hsource
        obtain ⟨statements⟩ := program
        cases statements with
        | nil => cases hsource
        | cons s rest =>
            exact for_copies_invisible.1 .default 100 false (.empty "" false) (fun _ => 0) [] 0
              source.toList _ false _ (.execute s) m hprogram
              (.first (asks_runStatements_head false s rest m))
  have hleaf {e : Expr} (he : e.isFunction = false) (hparts : e.parts = []) : e.ClosureFree :=
    .intro he (by simp [hparts])
  have hassign : (Expr.assign "go" (.literal (.boolean false) span) span).ClosureFree :=
    .intro rfl (by simpa [Expr.parts] using hleaf rfl rfl)
  have hdeclare :
      (Stmt.declare "go" (some (.literal (.boolean true) span)) false span).ClosureFree :=
    .intro rfl (by simpa [Stmt.expressions] using hleaf rfl rfl)
      (by simp [Stmt.branches, Stmt.inner, Stmt.loopBody?])
  have hbody : body.ClosureFree :=
    .intro rfl (by simpa [body, Stmt.expressions] using hleaf rfl rfl)
      (by simp [body, Stmt.branches, Stmt.inner, Stmt.loopBody?])
  have hfree : (Stmt.forLoop initial condition increment body span).ClosureFree :=
    .intro rfl
      (by simpa [initial, condition, increment, Stmt.expressions] using ⟨hleaf rfl rfl, hassign⟩)
      (by simpa [initial, Stmt.branches, Stmt.inner, Stmt.loopBody?] using ⟨hdeclare, hbody⟩)
  have hending : copying.ending.toOption = some .normal := by
    decide +kernel
  have houtput : copying.machine.output = "true\n" := by
    decide +kernel
  exact ⟨hscoped, hending, houtput,
    for_copies_invisible.2 ⟨1, false, 100⟩ 20 100 initial condition increment body span m hfree
      hscoped⟩

end Main

end Lox
