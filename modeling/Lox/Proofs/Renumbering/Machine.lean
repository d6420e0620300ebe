import Lox.Proofs.Agreement
import Lox.Proofs.Renumbering
import Lox.Proofs.Simulation.Bracket

/-!
# Computations under other scope numbers

A computation is *equivariant* at a level if it ends alike on paired machines, as long as the
scopes that are current on them correspond at the level. It may create scopes and objects; then
more scopes correspond afterwards. The rules below follow the ways in which computations are built.
-/

namespace Lox

/-- The stores hold related objects under the same numbers. -/
structure Stored {α : Type} (R : α → α → Prop) (xs ys : Array α) : Prop where
  size_eq : xs.size = ys.size
  related : ∀ i : Nat, Option.Rel R xs[i]? ys[i]?

namespace Stored

variable {α : Type} {R S : α → α → Prop} {xs ys : Array α}

theorem refl_of (h : ∀ x ∈ xs, R x x) : Stored R xs xs where
  size_eq := rfl
  related i := by
    cases hx : xs[i]? with
    | none => exact .none
    | some x => exact .some (h x (Array.mem_of_getElem? hx))

theorem push {x y : α} (h : Stored R xs ys) (hxy : R x y) : Stored R (xs.push x) (ys.push y) where
  size_eq := by simp [h.size_eq]
  related i := by
    rw [Array.getElem?_push, Array.getElem?_push, h.size_eq]
    split
    · exact .some hxy
    · exact h.related i

/-- Under a number there are related objects, or none. -/
@[elab_as_elim]
theorem cases
    {motive : Option α → Option α → Prop}
    (h : Stored R xs ys)
    (i : Nat)
    (none : motive none none)
    (some : ∀ x y, R x y → motive (some x) (some y)) :
    motive xs[i]? ys[i]? := by
  have hi := h.related i
  generalize xs[i]? = x, ys[i]? = y at hi
  cases hi with
  | none => exact none
  | some hxy => exact some _ _ hxy

theorem none_or_some (h : Stored R xs ys) (i : Nat) :
    (xs[i]? = none ∧ ys[i]? = none) ∨
      ∃ x y, xs[i]? = some x ∧ ys[i]? = some y ∧ R x y :=
  h.cases i (.inl ⟨rfl, rfl⟩) fun x y hxy => .inr ⟨x, y, rfl, rfl, hxy⟩

theorem mono (h : Stored R xs ys) (hR : ∀ x y, R x y → S x y) : Stored S xs ys where
  size_eq := h.size_eq
  related i := h.cases i .none fun x y hxy => .some (hR x y hxy)

end Stored

/-- The functions differ in nothing but the numbers of the scopes they close over. -/
inductive FunctionObject.Paired (R : ScopeId → ScopeId → Prop) :
    FunctionObject → FunctionObject → Prop
  | closure {name : String} {params : List String} {body : List Stmt} {a b : ScopeId} :
      R a b → Paired R (.closure name params body a) (.closure name params body b)
  | bound {receiver : InstanceId} {method : MethodId} :
      Paired R (.bound receiver method) (.bound receiver method)

theorem FunctionObject.Paired.mono
    {R S : ScopeId → ScopeId → Prop} {f f' : FunctionObject}
    (h : f.Paired R f')
    (hR : ∀ {a b}, R a b → S a b) :
    f.Paired S f' := by
  cases h with
  | closure hab => exact .closure (hR hab)
  | bound => exact .bound

/-- The methods differ in nothing but the numbers of the scopes they close over. -/
structure MethodObject.Paired (R : ScopeId → ScopeId → Prop) (f f' : MethodObject) : Prop where
  scope : R f.scope f'.scope
  rest : f' = { f with scope := f'.scope }

namespace Machine

/-- The machine with the scopes of another one, and with the functions and methods of it, which
refer to them. -/
def scopedAs (m o : Machine) : Machine :=
  { m with
    scopes := o.scopes
    functions := o.functions
    methods := o.methods
    current := o.current }

/-- The machines differ in nothing but the numbers of their scopes. -/
structure Paired (W : Pairing) (m m' : Machine) : Prop where
  scopes : m.scopes.Paired W m'.scopes
  functions : Stored (FunctionObject.Paired W.shared) m.functions m'.functions
  methods : Stored (MethodObject.Paired W.shared) m.methods m'.methods
  rest : m' = m.scopedAs m'

/-- The machines are paired, and the scopes correspond that are current on them. -/
structure Abreast (l : Level) (W : Pairing) (m m' : Machine) : Prop where
  paired : m.Paired W m'
  current : W.pairs l m.current m'.current

/-- The machines are abreast, after more scopes were created perhaps. -/
def Later (l : Level) (W : Pairing) (m m' : Machine) : Prop :=
  ∃ V, W.Within V ∧ m.Abreast l V m'

namespace Paired

variable {W V : Pairing} {l : Level} {m m' n n' : Machine}

/-- Only scopes have changed. -/
theorem of_scopes
    {s s' : Scopes}
    (h : m.Paired W m')
    (hshared : ∀ {a b}, W.shared a b → V.shared a b)
    (hscopes : s.Paired V s')
    (current current' : ScopeId) :
    Paired V { m with scopes := s, current := current }
      { m' with scopes := s', current := current' } where
  scopes := hscopes
  functions := h.functions.mono fun _ _ hf => hf.mono hshared
  methods := h.methods.mono fun _ _ hf => ⟨hshared hf.scope, hf.rest⟩
  rest := by
    rw [h.rest]
    rfl

/-- New scopes within scopes that correspond. -/
theorem create
    {a b : ScopeId}
    (h : m.Paired W m')
    (hab : W.pairs l a b)
    (bindings : List Binding)
    (current current' : ScopeId) :
    Paired (W.add l m.scopes.all.size m'.scopes.all.size)
      { m with scopes := (m.scopes.create ⟨some a, bindings⟩).1, current := current }
      { m' with scopes := (m'.scopes.create ⟨some b, bindings⟩).1, current := current' } := by
  have hrange := h.scopes.inRange (Pairing.pairs_inner hab)
  refine h.of_scopes (W.within_add ..).shared (h.scopes.create ?_ ?_) _ _
  · rfl
  · exact .inside hab hrange.1 hrange.2

theorem leave (h : m.Paired W m') (a b : ScopeId) : (m.leave a).Paired W (m'.leave b) :=
  h.of_scopes id h.scopes a b

theorem frames (h : m.Paired W m') : m.frames = m'.frames := by
  rw [h.rest]
  rfl

theorem output (h : m.Paired W m') : m.output = m'.output := by
  rw [h.rest]
  rfl

/-- Anything may change that neither is a scope nor refers to one. -/
theorem of_rest
    (h : m.Paired W m')
    (hn : n = n.scopedAs m)
    (hn' : n' = n.scopedAs m') :
    n.Paired W n' where
  scopes := by
    rw [hn, hn']
    exact h.scopes
  functions := by
    rw [hn, hn']
    exact h.functions
  methods := by
    rw [hn, hn']
    exact h.methods
  rest := by
    rw [hn']
    rfl

end Paired

namespace Abreast

variable {W V : Pairing} {l k : Level} {m m' n n' : Machine}

theorem later (h : m.Abreast l W m') : m.Later l W m' :=
  ⟨W, .refl W, h⟩

theorem of_rest (h : m.Abreast l W m') (hn : n = n.scopedAs m) (hn' : n' = n.scopedAs m') :
    n.Abreast l W n' where
  paired := h.paired.of_rest hn hn'
  current := by
    rw [hn, hn']
    exact h.current

/-- Back in the scopes that were current before. -/
theorem leave (h : m.Abreast l W m') (hwithin : W.Within V) (hn : n.Paired V n') :
    (n.leave m.current).Abreast l V (n'.leave m'.current) :=
  ⟨hn.leave _ _, hwithin.pairs h.current⟩

end Abreast

/-- Inside new scopes within scopes that correspond. -/
theorem Paired.enter
    {l : Level} {W : Pairing} {m m' : Machine} {a b : ScopeId}
    (h : m.Paired W m')
    (hab : W.pairs l a b)
    (bindings : List Binding) :
    (m.enter a bindings).Abreast l (W.add l m.scopes.all.size m'.scopes.all.size)
      (m'.enter b bindings) := by
  rw [enter_eq, enter_eq]
  exact ⟨h.create hab _ _ _, W.pairs_add ..⟩

theorem Later.mono {l : Level} {W V : Pairing} {m m' : Machine}
    (h : m.Later l V m') (hwithin : W.Within V) : m.Later l W m' := by
  obtain ⟨U, hU, hm⟩ := h
  exact ⟨U, hwithin.trans hU, hm⟩

end Machine

namespace Eval

open Machine (Abreast Later Paired)

variable {α β : Type} {l k : Level} {W V : Pairing}

/-- The computations end alike on machines that are abreast, and leave them abreast. -/
def Parallel (l : Level) (W : Pairing) (c c' : Eval α) : Prop :=
  Related (Later l W) (Later l W) (fun _ => True) (fun _ => True) c c'

/-- The computation does not depend on the numbers of the scopes. -/
def Equivariant (l : Level) (c : Eval α) : Prop :=
  ∀ W, Parallel l W c c

/-- How two computations end on machines that are abreast. -/
abbrev Ends (l : Level) (W : Pairing) (o o' : Outcome α) : Prop :=
  Outcome.Agree (Later l W) (fun _ => True) (fun _ => True) o o'

theorem Ends.mono {o o' : Outcome α} (h : Ends l V o o') (hwithin : W.Within V) : Ends l W o o' :=
  h.weaken (fun _ _ hm => hm.mono hwithin) fun _ h => h

namespace Parallel

variable {c c' : Eval α}

theorem of_ends
    (h : ∀ V m m', W.Within V → m.Abreast l V m' → Ends l V (c m) (c' m')) :
    Parallel l W c c' := by
  rintro m m' ⟨V, hwithin, hm⟩
  exact Ends.mono (h V m m' hwithin hm) hwithin

theorem pure (a : α) : Parallel l W (pure a) (pure a) :=
  Related.pure trivial

theorem bind
    {f f' : α → Eval β}
    (hc : Parallel l W c c')
    (hf : ∀ a, Parallel l W (f a) (f' a)) :
    Parallel l W (c >>= f) (c' >>= f') :=
  Related.bind hc fun a _ => hf a

end Parallel

namespace Equivariant

variable {c : Eval α}

section Rules

theorem of_ends (h : ∀ W m m', m.Abreast l W m' → Ends l W (c m) (c m')) : Equivariant l c :=
  fun _ => .of_ends fun V m m' _ hm => h V m m' hm

theorem ends {m m' : Machine} (h : Equivariant l c) (hm : m.Abreast l W m') :
    Ends l W (c m) (c m') :=
  h W m m' hm.later

theorem pure (a : α) : Equivariant l (pure a : Eval α) :=
  fun _ => .pure a

theorem stop (why : Interruption) : Equivariant l (Eval.stop why : Eval α) :=
  fun _ => Related.stop trivial

theorem fail (fault : Fault) : Equivariant l (Eval.fail fault : Eval α) :=
  stop _

theorem ofExcept (result : Except Fault α) : Equivariant l (Eval.ofExcept result) :=
  fun _ => Related.ofExcept (fun _ _ => trivial) fun _ => trivial

theorem bind
    {f : α → Eval β}
    (hc : Equivariant l c)
    (hf : ∀ a, Equivariant l (f a)) :
    Equivariant l (c >>= f) :=
  fun W => (hc W).bind fun a => hf a W

theorem locating (hc : Equivariant l c) (span : Span) : Equivariant l (Eval.locating span c) :=
  fun W => Related.locating (hc W) fun _ => trivial

theorem settle {c : Eval Signal} (hc : Equivariant l c) (catchFaults : Bool) (span : Span) :
    Equivariant l (Eval.settle catchFaults span c) := by
  refine fun W => Related.settle (hc W) ?_ (fun _ => trivial) (fun _ _ => trivial)
    fun _ _ _ => trivial
  rintro m m' ⟨V, -, hm⟩
  exact hm.paired.frames

/-- A question about anything that does not depend on the numbers of scopes. -/
theorem ask
    {question : Machine → α}
    (h : ∀ W m m', m.Paired W m' → question m = question m') :
    Equivariant l (Eval.ask question) := by
  refine fun W => Related.ask ?_
  rintro m m' ⟨V, -, hm⟩
  exact ⟨h V m m' hm.paired, trivial⟩

/-- A computation whose course depends on the scope that is current. -/
theorem inPlace
    {c : ScopeId → Eval α}
    (h : ∀ W a b, W.pairs l a b → Parallel l W (c a) (c b)) :
    Equivariant l (Eval.ask (·.current) >>= c) :=
  of_ends fun W m m' hm => h W m.current m'.current hm.current m m' hm.later

end Rules

section Brackets

/-- Code that runs in new scopes, after which the scopes are current again that were before. -/
theorem enter
    {m m' : Machine} {a b : ScopeId}
    (hc : Equivariant k c)
    (hm : m.Abreast l W m')
    (hab : W.pairs k a b)
    (bindings : List Binding) :
    Ends l W ((c (m.enter a bindings)).onMachine (·.leave m.current))
      ((c (m'.enter b bindings)).onMachine (·.leave m'.current)) := by
  refine (hc.ends (hm.paired.enter hab bindings)).onMachine fun n n' hn => ?_
  obtain ⟨V, hwithin, hn⟩ := hn
  have hwithin := (W.within_add ..).trans hwithin
  exact ⟨V, hwithin, hm.leave hwithin hn.paired⟩

theorem inInnerScope (hc : Equivariant l c) (bindings : List Binding) :
    Equivariant l (Eval.inInnerScope bindings c) := by
  refine of_ends fun W m m' hm => ?_
  rw [inInnerScope_apply, inInnerScope_apply]
  exact hc.enter hm hm.current bindings

theorem inCall (hc : Equivariant l c) (frame : Frame) :
    Equivariant l (Eval.inCall frame c) := by
  refine of_ends fun W m m' hm => ?_
  have hrest : m'.pushFrame frame = (m.pushFrame frame).scopedAs m' := by
    rw [Machine.pushFrame, hm.paired.rest]
    rfl
  rw [inCall_apply, inCall_apply]
  refine (hc.ends (hm.of_rest rfl hrest)).onMachine fun n n' hn => ?_
  obtain ⟨V, hwithin, hn⟩ := hn
  refine ⟨V, hwithin, hn.of_rest rfl ?_⟩
  rw [Machine.popFrame, hn.paired.rest]
  rfl

end Brackets

end Equivariant

end Eval

end Lox
