import Lox.Proofs.Entering

/-!
# Scopes under other numbers

Scopes are numbered in the order of their creation, so a run that creates one scope more than
another gives other numbers to all scopes that follow. A `Pairing` says which scopes of two
machines correspond: they have the same bindings, and the scopes around them correspond as well.
The machines are paired if they differ in nothing else.

The scopes that functions and methods close over are kept apart from the others. A scope that
nothing closes over can be given up when the code in it has ended, and another one can take its
place: this is how the copies that a `for` statement makes of a scope are followed.
-/

namespace Lox

/-- Where code runs: in a scope that functions may close over, or in one of which no function is
made. -/
inductive Level
  | shared | inner

/-- Which scopes of two machines correspond. -/
structure Pairing where
  /-- The scopes that functions and methods may close over. -/
  shared : ScopeId → ScopeId → Prop
  /-- The scopes that nothing closes over. -/
  inner : ScopeId → ScopeId → Prop

namespace Pairing

/-- The scopes that code of a level may run in. -/
def pairs (W : Pairing) : Level → ScopeId → ScopeId → Prop
  | .shared, a, b => W.shared a b
  | .inner, a, b => W.shared a b ∨ W.inner a b

/-- What corresponds still does. -/
structure Within (W V : Pairing) : Prop where
  shared : ∀ {a b}, W.shared a b → V.shared a b
  inner : ∀ {a b}, W.inner a b → V.inner a b

/-- Two more scopes correspond. -/
def add (W : Pairing) (l : Level) (a b : ScopeId) : Pairing :=
  match l with
  | .shared => { W with shared := fun x y => W.shared x y ∨ x = a ∧ y = b }
  | .inner => { W with inner := fun x y => W.inner x y ∨ x = a ∧ y = b }

/-- The inner scopes from a certain one on are given up. -/
def before (W : Pairing) (a : ScopeId) : Pairing :=
  { W with inner := fun x y => W.inner x y ∧ x < a }

variable {W V U : Pairing} {l k : Level} {a b x y : ScopeId}

theorem pairs_inner (h : W.pairs l a b) : W.pairs .inner a b := by
  cases l with
  | shared => exact .inl h
  | inner => exact h

theorem pairs_of_shared (h : W.shared a b) : W.pairs l a b := by
  cases l with
  | shared => exact h
  | inner => exact .inl h

theorem pairs_of_inner (h : W.inner a b) : W.pairs .inner a b :=
  .inr h

namespace Within

theorem refl (W : Pairing) : W.Within W :=
  ⟨id, id⟩

theorem trans (h : W.Within V) (h' : V.Within U) : W.Within U :=
  ⟨fun hab => h'.shared (h.shared hab), fun hab => h'.inner (h.inner hab)⟩

theorem pairs (h : W.Within V) (hab : W.pairs l a b) : V.pairs l a b := by
  cases l with
  | shared => exact h.shared hab
  | inner => exact hab.imp h.shared h.inner

end Within

theorem within_add (W : Pairing) (l : Level) (a b : ScopeId) : W.Within (W.add l a b) := by
  cases l with
  | shared => exact ⟨.inl, id⟩
  | inner => exact ⟨id, .inl⟩

theorem pairs_add (W : Pairing) (l : Level) (a b : ScopeId) : (W.add l a b).pairs l a b := by
  cases l with
  | shared => exact .inr ⟨rfl, rfl⟩
  | inner => exact .inr (.inr ⟨rfl, rfl⟩)

/-- The scopes that correspond are those from before and the two new ones. -/
theorem pairs_of_add (h : (W.add l a b).pairs k x y) :
    W.pairs k x y ∨ (x = a ∧ y = b ∧ ∀ {p q}, W.pairs l p q → W.pairs k p q) := by
  cases l with
  | shared =>
      cases k with
      | shared => exact h.imp_right fun hnew => ⟨hnew.1, hnew.2, id⟩
      | inner =>
          rcases h with (h | hnew) | h
          · exact .inl (.inl h)
          · exact .inr ⟨hnew.1, hnew.2, .inl⟩
          · exact .inl (.inr h)
  | inner =>
      cases k with
      | shared => exact .inl h
      | inner =>
          rcases h with h | h | hnew
          · exact .inl (.inl h)
          · exact .inl (.inr h)
          · exact .inr ⟨hnew.1, hnew.2, id⟩

theorem pairs_of_before (h : (W.before a).pairs l x y) : W.pairs l x y := by
  cases l with
  | shared => exact h
  | inner => exact h.imp_right And.left

/-- An older scope is not given up. -/
theorem pairs_before (h : W.pairs l x y) (hlt : x < a) : (W.before a).pairs l x y := by
  cases l with
  | shared => exact h
  | inner => exact h.imp_right fun hinner => ⟨hinner, hlt⟩

end Pairing

/-- There is no scope around either of two scopes, or there are older ones that correspond. -/
inductive Linked (R : ScopeId → ScopeId → Prop) (a b : ScopeId) :
    Option ScopeId → Option ScopeId → Prop
  | outermost : Linked R a b none none
  | inside {p q : ScopeId} : R p q → p < a → q < b → Linked R a b (some p) (some q)

theorem Linked.mono
    {R S : ScopeId → ScopeId → Prop} {a b c d : ScopeId} {p q : Option ScopeId}
    (h : Linked R a b p q)
    (hR : ∀ {x y}, R x y → x < a → S x y)
    (ha : a ≤ c)
    (hb : b ≤ d) :
    Linked S c d p q := by
  cases h with
  | outermost => exact .outermost
  | inside hpq hp hq =>
      exact .inside (hR hpq hp) (Nat.lt_of_lt_of_le hp ha) (Nat.lt_of_lt_of_le hq hb)

/-- Corresponding scopes have the same bindings, and the scopes around them correspond. -/
structure Scopes.Paired (W : Pairing) (s s' : Scopes) : Prop where
  builtin : W.shared Machine.builtinScope Machine.builtinScope
  inRange : ∀ {a b}, W.pairs .inner a b → a < s.all.size ∧ b < s'.all.size
  eq_iff : ∀ {a b x y}, W.pairs .inner a b → W.pairs .inner x y → (a = x ↔ b = y)
  apart : ∀ {a b}, W.shared a b → ¬W.inner a b
  bindings : ∀ {a b}, W.pairs .inner a b → (s.get a).bindings = (s'.get b).bindings
  linked : ∀ {l a b}, W.pairs l a b →
    Linked (W.pairs l) a b (s.get a).parent (s'.get b).parent

namespace Scopes.Paired

variable {W : Pairing} {s s' : Scopes} {l : Level} {a b : ScopeId}

section Names

theorem find? (h : Paired W s s') (hab : W.pairs l a b) (name : String) :
    (s.get a).find? name = (s'.get b).find? name := by
  unfold Scope.find?
  rw [h.bindings (Pairing.pairs_inner hab)]

/-- A name is found in scopes that correspond, or in none. -/
theorem lookup?
    (h : Paired W s s')
    (hab : W.pairs l a b)
    (name : String) :
    Option.Rel (fun found found' => W.pairs l found.1 found'.1 ∧ found.2 = found'.2)
      (s.lookup? a name) (s'.lookup? b name) := by
  induction a using Nat.strongRecOn generalizing b with
  | ind a ih =>
      rw [Scopes.lookup?, Scopes.lookup?, h.find? hab]
      cases (s'.get b).find? name with
      | some c => exact .some ⟨hab, rfl⟩
      | none =>
          have hlinked := h.linked hab
          generalize (s.get a).parent = p, (s'.get b).parent = q at hlinked
          cases hlinked with
          | outermost => exact .none
          | inside hpq hp hq =>
              simp only [if_pos hp, if_pos hq]
              exact ih _ hp hpq

theorem value (h : Paired W s s') (hab : W.pairs l a b) (name : String) :
    s.value a name = s'.value b name := by
  have hfound := h.lookup? hab name
  unfold Scopes.value
  generalize s.lookup? a name = found, s'.lookup? b name = found' at hfound
  cases hfound with
  | none => rfl
  | some hfound => simp only [hfound.2]

/-- A binding may be made in scopes that correspond. -/
theorem define (h : Paired W s s') (hab : W.pairs l a b) (c : Binding) :
    Paired W (s.define a c) (s'.define b c) where
  builtin := h.builtin
  inRange hxy := by simpa using h.inRange hxy
  eq_iff := h.eq_iff
  apart := h.apart
  bindings {x y} hxy := by
    have hab := Pairing.pairs_inner hab
    by_cases hx : x = a
    · obtain rfl := hx
      obtain rfl := (h.eq_iff hxy hab).mp rfl
      rw [get_define_self c (h.inRange hab).1, get_define_self c (h.inRange hab).2]
      simp only [Scope.define, h.bindings hab]
    · have hy : y ≠ b := fun hy => hx ((h.eq_iff hxy hab).mpr hy)
      rw [get_define_of_ne c hx, get_define_of_ne c hy]
      exact h.bindings hxy
  linked hxy := by
    rw [parent_define, parent_define]
    exact h.linked hxy

theorem assign (h : Paired W s s') (hab : W.pairs l a b) (name : String) (v : Value) :
    (s.assign a name v).1 = (s'.assign b name v).1 ∧
      Paired W (s.assign a name v).2 (s'.assign b name v).2 := by
  have hfound := h.lookup? hab name
  unfold Scopes.assign
  generalize s.lookup? a name = found, s'.lookup? b name = found' at hfound
  cases hfound with
  | none => exact ⟨rfl, h⟩
  | @some found found' hfound =>
      obtain ⟨owner, c⟩ := found
      obtain ⟨owner', c'⟩ := found'
      obtain ⟨howner, rfl⟩ := hfound
      cases hconst : c.isConst with
      | true => simpa [hconst] using h
      | false => simpa [hconst] using h.define howner { c with value := v }

/-- What is listed of corresponding scopes is listed of the scopes around them as well. -/
theorem flatMap_chain
    {α : Type} {f f' : ScopeId → List α}
    (h : Paired W s s')
    (hab : W.pairs l a b)
    (hf : ∀ {x y}, W.pairs l x y → f x = f' y) :
    (s.chain a (some Machine.builtinScope)).flatMap f =
      (s'.chain b (some Machine.builtinScope)).flatMap f' := by
  induction a using Nat.strongRecOn generalizing b with
  | ind a ih =>
      have hstop : (some a = some Machine.builtinScope) ↔ some b = some Machine.builtinScope := by
        rw [Option.some_inj, Option.some_inj]
        exact h.eq_iff (Pairing.pairs_inner hab) (.inl h.builtin)
      rw [Scopes.chain, Scopes.chain.eq_def s' b]
      by_cases hb : some b = some Machine.builtinScope
      · rw [if_pos (hstop.mpr hb), if_pos hb]
        rfl
      · rw [if_neg (mt hstop.mp hb), if_neg hb]
        have hlinked := h.linked hab
        generalize (s.get a).parent = p, (s'.get b).parent = q at hlinked
        cases hlinked with
        | outermost => simp only [List.flatMap_cons, hf hab, List.flatMap_nil]
        | inside hpq hp hq =>
            simp only [if_pos hp, if_pos hq, List.flatMap_cons, hf hab, ih _ hp hpq]

end Names

section Creation

/-- A scope that corresponds to another one is not new. -/
theorem ne_size (h : Paired W s s') (hab : W.pairs l a b) :
    a ≠ s.all.size ∧ b ≠ s'.all.size :=
  ⟨Nat.ne_of_lt (h.inRange (Pairing.pairs_inner hab)).1,
    Nat.ne_of_lt (h.inRange (Pairing.pairs_inner hab)).2⟩

/-- A new scope on one machine corresponds to a scope of the other that none corresponded to. -/
theorem createLeft
    (h : Paired W s s')
    {scope : Scope}
    (hrange : b < s'.all.size)
    (hfree : ∀ {x y}, W.pairs .inner x y → y ≠ b)
    (hbindings : scope.bindings = (s'.get b).bindings)
    (hlinked : Linked (W.pairs l) s.all.size b scope.parent (s'.get b).parent) :
    Paired (W.add l s.all.size b) (s.create scope).1 s' where
  builtin := (W.within_add ..).shared h.builtin
  inRange hxy := by
    rw [size_create]
    rcases Pairing.pairs_of_add hxy with hxy | ⟨rfl, rfl, -⟩
    · exact (h.inRange hxy).imp_left Nat.lt_succ_of_lt
    · exact ⟨Nat.lt_succ_self _, hrange⟩
  eq_iff hxy hvw := by
    rcases Pairing.pairs_of_add hxy with hold | ⟨rfl, rfl, -⟩
    · rcases Pairing.pairs_of_add hvw with hold' | ⟨rfl, rfl, -⟩
      · exact h.eq_iff hold hold'
      · exact iff_of_false (h.ne_size hold).1 (hfree hold)
    · rcases Pairing.pairs_of_add hvw with hold' | ⟨rfl, rfl, -⟩
      · exact iff_of_false (h.ne_size hold').1.symm (hfree hold').symm
      · exact iff_of_true rfl rfl
  apart {x y} hshared hinner := by
    cases l with
    | shared =>
        rcases hshared with hshared | ⟨rfl, -⟩
        · exact h.apart hshared hinner
        · exact (h.ne_size (Pairing.pairs_of_inner hinner)).1 rfl
    | inner =>
        rcases hinner with hinner | ⟨rfl, -⟩
        · exact h.apart hshared hinner
        · exact (h.ne_size (Pairing.pairs_of_shared hshared : W.pairs .inner _ _)).1 rfl
  bindings hxy := by
    rcases Pairing.pairs_of_add hxy with hxy | ⟨rfl, rfl, -⟩
    · rw [get_create_of_ne _ (h.ne_size hxy).1]
      exact h.bindings hxy
    · rw [get_create_self]
      exact hbindings
  linked hxy := by
    have hwithin := W.within_add l s.all.size b
    rcases Pairing.pairs_of_add hxy with hxy | ⟨rfl, rfl, hlevel⟩
    · rw [get_create_of_ne _ (h.ne_size hxy).1]
      exact (h.linked hxy).mono (fun hpq _ => hwithin.pairs hpq) (Nat.le_refl _)
        (Nat.le_refl _)
    · rw [get_create_self]
      exact hlinked.mono (fun hpq _ => hwithin.pairs (hlevel hpq)) (Nat.le_refl _) (Nat.le_refl _)

/-- A new scope on the other machine need not correspond to any. -/
theorem createRight (h : Paired W s s') (scope : Scope) : Paired W s (s'.create scope).1 where
  builtin := h.builtin
  inRange hxy := by
    rw [size_create]
    exact (h.inRange hxy).imp_right Nat.lt_succ_of_lt
  eq_iff := h.eq_iff
  apart := h.apart
  bindings hxy := by
    rw [get_create_of_ne _ (h.ne_size hxy).2]
    exact h.bindings hxy
  linked hxy := by
    rw [get_create_of_ne _ (h.ne_size hxy).2]
    exact h.linked hxy

/-- The scopes that are created last correspond. -/
theorem create
    (h : Paired W s s')
    {scope scope' : Scope}
    (hbindings : scope.bindings = scope'.bindings)
    (hlinked : Linked (W.pairs l) s.all.size s'.all.size scope.parent scope'.parent) :
    Paired (W.add l s.all.size s'.all.size) (s.create scope).1 (s'.create scope').1 := by
  refine (h.createRight scope').createLeft ?_ (fun hxy => (h.ne_size hxy).2) ?_ ?_
  · rw [size_create]
    exact Nat.lt_succ_self _
  · rw [get_create_self]
    exact hbindings
  · rw [get_create_self]
    exact hlinked

/-- Inner scopes that are young enough may be given up: no scope that is kept is in one of them. -/
theorem before (h : Paired W s s') (a : ScopeId) : Paired (W.before a) s s' where
  builtin := h.builtin
  inRange hxy := h.inRange (Pairing.pairs_of_before hxy)
  eq_iff hab hxy := h.eq_iff (Pairing.pairs_of_before hab) (Pairing.pairs_of_before hxy)
  apart hshared hinner := h.apart hshared hinner.1
  bindings hxy := h.bindings (Pairing.pairs_of_before hxy)
  linked {l x y} hxy := by
    have hlinked := h.linked (Pairing.pairs_of_before hxy)
    cases l with
    | shared => exact hlinked
    | inner =>
        rcases hxy with hshared | ⟨hinner, hlt⟩
        · have hshared : W.pairs .shared x y := hshared
          exact (h.linked hshared).mono (fun hpq _ => .inl hpq) (Nat.le_refl _) (Nat.le_refl _)
        · exact hlinked.mono (fun hpq hp => Pairing.pairs_before hpq (Nat.lt_trans hp hlt))
            (Nat.le_refl _) (Nat.le_refl _)

/-- What is kept when an inner scope is given up does not correspond to its counterpart. -/
theorem ne_of_before
    {x y : ScopeId}
    (h : Paired W s s')
    (hab : W.inner a b)
    (hxy : (W.before a).pairs .inner x y) :
    y ≠ b := by
  rintro rfl
  obtain rfl := (h.eq_iff (Pairing.pairs_of_before hxy) (Pairing.pairs_of_inner hab)).mpr rfl
  rcases hxy with hshared | ⟨-, hlt⟩
  · exact h.apart hshared hab
  · exact Nat.lt_irrefl _ hlt

/-- A copy of an inner scope takes its place. -/
theorem copyLeft (h : Paired W s s') (hab : W.inner a b) :
    Paired ((W.before a).add .inner s.all.size b) (s.copy a).1 s' := by
  have hpairs := Pairing.pairs_of_inner hab
  have hrange := h.inRange hpairs
  refine (h.before a).createLeft hrange.2 (h.ne_of_before hab) (h.bindings hpairs) ?_
  exact (h.linked hpairs).mono Pairing.pairs_before (Nat.le_of_lt hrange.1) (Nat.le_refl _)

end Creation

end Scopes.Paired

end Lox
