import Lox.Proofs.Journal.Chronicle

/-!
# Bindings that are left alone

A chronicle changes a binding of a scope that is not the current one only by assignments
(`Chronicle.intact`). If, besides, the name does not stand for the binding in the current scope, all
these assignments are made in calls of functions that were made where it does (`Chronicle.during`).
What comes after the execution of a statement therefore spares the bindings of all scopes that were
made meanwhile (`Chronicle.after_execute`).
-/

namespace Lox

section Throughout

/-- The property holds of each event of a journal together with the events before it. -/
def Throughout (P : List Event → Event → Prop) (journal : List Event) : Prop :=
  ∀ past e later, journal = past ++ e :: later → P past e

variable {P Q : List Event → Event → Prop} {journal later : List Event} {e : Event}

theorem append_eq_append_cons {past rest : List Event} :
    journal ++ later = past ++ e :: rest ↔
      (∃ middle, journal = past ++ e :: middle ∧ rest = middle ++ later) ∨
        ∃ middle, past = journal ++ middle ∧ later = middle ++ e :: rest := by
  constructor
  · intro h
    rcases List.append_eq_append_iff.mp h with ⟨middle, hpast, hlater⟩ | ⟨middle, hjournal, hrest⟩
    · exact .inr ⟨middle, hpast, hlater⟩
    · cases middle with
      | nil => exact .inr ⟨[], by simpa using hjournal.symm, hrest.symm⟩
      | cons e' middle =>
          obtain ⟨rfl, rfl⟩ := List.cons.inj hrest
          exact .inl ⟨middle, hjournal, rfl⟩
  · rintro (⟨middle, rfl, rfl⟩ | ⟨middle, rfl, rfl⟩) <;> simp

theorem Throughout.nil : Throughout P [] := by
  intro past e later h
  simp at h

theorem Throughout.append
    (h : Throughout P journal)
    (h' : Throughout (fun past => P (journal ++ past)) later) :
    Throughout P (journal ++ later) := by
  intro past e rest heq
  rcases append_eq_append_cons.mp heq with ⟨middle, hjournal, -⟩ | ⟨middle, rfl, hlater⟩
  · exact h past e middle hjournal
  · exact h' middle e rest hlater

theorem Throughout.cons (h : P [] e) (h' : Throughout (fun past => P (e :: past)) journal) :
    Throughout P (e :: journal) := by
  intro past e' rest heq
  rcases List.cons_eq_append_iff.mp heq with ⟨rfl, hcons⟩ | ⟨past, rfl, hrest⟩
  · obtain ⟨rfl, -⟩ := List.cons.inj hcons
    exact h
  · exact h' past e' rest hrest

theorem Throughout.mono (h : Throughout P journal) (hPQ : ∀ past e, P past e → Q past e) :
    Throughout Q journal :=
  fun past e later heq => hPQ past e (h past e later heq)

theorem Throughout.of_forall (h : ∀ past, ∀ e ∈ journal, P past e) : Throughout P journal :=
  fun past e _ heq => h past e (heq ▸ by simp)

end Throughout

section Assignments

variable (name : String) (owner : ScopeId)

/-- The beginning of an assignment to the name in a scope in which it stands for the binding of
`owner`. -/
def Event.Assigns (e : Event) : Prop :=
  ∃ value span m, e = .began (.evaluate (.assign name value span)) m ∧
    m.scopes.Refers m.current name owner

/-- The event happens in a call, begun among the events before it, of a function or method that was
made where the name stands for the binding of `owner`. -/
def DuringCall (past : List Event) (e : Event) : Prop :=
  ∃ earlier body m since scope,
    past = earlier ++ .began (.run body) m :: since ∧
    m.Runs body scope ∧
    m.scopes.Refers scope name owner ∧
    ∀ e' ∈ since ++ [e], m.frames.length ≤ e'.machine.frames.length

/-- If the event is an assignment to the binding of `owner`, it happens in such a call. -/
def AssignsInCall (past : List Event) (e : Event) : Prop :=
  e.Assigns name owner → DuringCall name owner past e

/-- The binding of `owner` is `b?`, unless an assignment to it was begun. -/
def Intact (b? : Option Binding) (past : List Event) (m : Machine) : Prop :=
  (m.scopes.get owner).find? name = b? ∨ ∃ a ∈ past, a.Assigns name owner

end Assignments

variable {limits : Limits} {name : String} {owner : ScopeId} {b? : Option Binding}
variable {m n : Machine} {journal : List Event}

theorem DuringCall.before
    {past : List Event}
    {e : Event}
    (h : DuringCall name owner past e)
    (earlier : List Event) :
    DuringCall name owner (earlier ++ past) e := by
  obtain ⟨first, body, m, since, scope, rfl, hruns, hrefers, hframes⟩ := h
  exact ⟨earlier ++ first, body, m, since, scope, by simp, hruns, hrefers, hframes⟩

theorem AssignsInCall.before
    {past : List Event}
    {e : Event}
    (h : AssignsInCall name owner past e)
    (earlier : List Event) :
    AssignsInCall name owner (earlier ++ past) e :=
  fun he => (h he).before earlier

theorem Intact.before {past : List Event} (h : Intact name owner b? past m) (earlier : List Event) :
    Intact name owner b? (earlier ++ past) m := by
  rcases h with h | ⟨a, ha, hassigns⟩
  · exact .inl h
  · exact .inr ⟨a, List.mem_append_right _ ha, hassigns⟩

/-- The binding is intact throughout a journal and after it. -/
structure StaysIntact
    (name : String)
    (owner : ScopeId)
    (b? : Option Binding)
    (journal : List Event)
    (n : Machine) :
    Prop where
  events : Throughout (fun past e => Intact name owner b? past e.machine) journal
  last : Intact name owner b? journal n

namespace StaysIntact

theorem nil (h : (n.scopes.get owner).find? name = b?) : StaysIntact name owner b? [] n :=
  ⟨.nil, .inl h⟩

theorem append
    {later : List Event}
    {o : Machine}
    (h : StaysIntact name owner b? journal n)
    (h' : (n.scopes.get owner).find? name = b? → StaysIntact name owner b? later o) :
    StaysIntact name owner b? (journal ++ later) o := by
  rcases h.last with hn | ⟨a, ha, hassigns⟩
  · have hlater := h' hn
    exact ⟨h.events.append (hlater.events.mono fun _ _ hpast => hpast.before journal),
      hlater.last.before journal⟩
  · -- from here on it does not matter what the binding is
    refine ⟨h.events.append (.of_forall fun past e _ => ?_), ?_⟩
    · exact .inr ⟨a, List.mem_append_left _ ha, hassigns⟩
    · exact .inr ⟨a, List.mem_append_left _ ha, hassigns⟩

theorem cons
    {e : Event}
    (he : (e.machine.scopes.get owner).find? name = b?)
    (h : StaysIntact name owner b? journal n) :
    StaysIntact name owner b? (e :: journal) n :=
  ⟨.cons (.inl he) (h.events.mono fun _ _ hpast => hpast.before [e]), h.last.before [e]⟩

/-- After an assignment, anything may be. -/
theorem of_assigns
    {e : Event}
    (he : (e.machine.scopes.get owner).find? name = b?)
    (hassigns : e.Assigns name owner) :
    StaysIntact name owner b? (e :: journal) n :=
  ⟨.cons (.inl he) (.of_forall fun _ _ _ => .inr ⟨e, List.mem_cons_self, hassigns⟩),
    .inr ⟨e, List.mem_cons_self, hassigns⟩⟩

/-- Nothing happens but on machines with the binding. -/
theorem of_forall
    (h : ∀ e ∈ journal, (e.machine.scopes.get owner).find? name = b?)
    (hlast : (n.scopes.get owner).find? name = b?) :
    StaysIntact name owner b? journal n :=
  ⟨.of_forall fun _ e he => .inl (h e he), .inl hlast⟩

end StaysIntact

/-- A binding of a scope that is not the current one stays intact. -/
theorem Chronicle.intact
    (h : Chronicle limits m journal n)
    (hm : m.IsRanged)
    (howner : owner < m.scopes.all.size)
    (hne : owner ≠ m.current) :
    StaysIntact name owner ((m.scopes.get owner).find? name) journal n := by
  induction h with
  | step h => exact .nil (by rw [h.others owner howner hne])
  | copy h => exact .nil (congrArg (·.find? name) (Scopes.get_create_of_ne _ (Nat.ne_of_lt howner)))
  | @note e h => exact .of_forall (by simp) rfl
  | @append m n o _ _ h h' ih ih' =>
      refine (ih hm howner hne).append fun hn => hn ▸ ?_
      obtain ⟨hranged, hcurrent, -⟩ := h.isRanged hm
      refine ih' hranged (Nat.lt_of_lt_of_le howner h.precedes.1.size_le) fun heq => ?_
      rcases hcurrent with hcurrent | hle
      · exact hne (heq.trans hcurrent)
      · exact absurd (heq ▸ howner) (Nat.not_lt_of_le hle)
  | answer hjournal hleaves hcurrent h ih => exact .cons rfl (ih hm howner hne)
  | @assign m n target value span v journal notes hcurrent h hnotes ih =>
      by_cases hassigns : target = name ∧ m.scopes.Refers m.current name owner
      · obtain ⟨rfl, hrefers⟩ := hassigns
        exact .of_assigns rfl ⟨value, span, m, rfl, hrefers⟩
      · refine .cons rfl ((ih hm howner hne).append fun hn => ?_)
        -- the assignment is to something else
        have hother : ((n.assign n.current target v).2.scopes.get owner).find? name =
            (n.scopes.get owner).find? name := by
          refine Scopes.find?_assign v fun htarget hrefers => hassigns ⟨htarget, ?_⟩
          obtain ⟨c, hc⟩ := hrefers.find?
          exact h.precedes.1.refers (hn.symm.trans hc) hm (hcurrent ▸ hrefers)
        exact .of_forall (fun e he => by rw [(hnotes e he).1, hother, hn]) (hother.trans hn)
  | @block m n bindings journal h ih =>
      have hlt : owner < (m.enter m.current bindings).scopes.all.size := by
        simpa using Nat.lt_succ_of_lt howner
      have hne' : owner ≠ (m.enter m.current bindings).current := by
        simpa using Nat.ne_of_lt howner
      have hinner := ih (m.isRanged_enter _ _) hlt hne'
      rw [Machine.get_enter_of_lt _ _ _ howner] at hinner
      exact ⟨hinner.events, hinner.last⟩
  | frame h ih =>
      have hinner := ih hm howner hne
      exact ⟨hinner.events, hinner.last⟩
  | @call m before entered n _ _ _ _ hbefore henters _ h ih =>
      have hlt := Nat.lt_of_lt_of_le howner hbefore.precedes.size_le
      have hne' : owner ≠ entered.current :=
        Nat.ne_of_lt (Nat.lt_of_lt_of_le hlt henters.isRanged.1)
      have hinner := ih henters.isRanged.2 (Nat.lt_of_lt_of_le hlt henters.precedes.size_le) hne'
      rw [henters.others hlt, hbefore.others owner howner hne] at hinner
      exact ⟨hinner.events, hinner.last⟩

/-- In the current scope, the name does not stand for the binding of `owner`. -/
structure Machine.Detached (m : Machine) (name : String) (owner : ScopeId) : Prop where
  isRanged : m.IsRanged
  bound : ∃ b, (m.scopes.get owner).find? name = some b
  off : ¬m.scopes.Refers m.current name owner

namespace Machine.Detached

theorem owner_lt (h : m.Detached name owner) : owner < m.scopes.all.size := by
  obtain ⟨b, hb⟩ := h.bound
  exact Scopes.lt_size_of_find? hb

theorem ne_current (h : m.Detached name owner) : owner ≠ m.current := by
  rintro rfl
  obtain ⟨b, hb⟩ := h.bound
  exact h.off (Scopes.refers_self hb)

/-- If an older scope is current than the one that has the binding. -/
theorem of_lt
    (hranged : m.IsRanged)
    (hbound : ∃ b, (m.scopes.get owner).find? name = some b)
    (hlt : m.current < owner) :
    m.Detached name owner :=
  ⟨hranged, hbound, fun hrefers => Nat.not_le_of_lt hlt hrefers.le⟩

/-- An assignment in the current scope is one to something else. -/
theorem find?_assign (h : m.Detached name owner) (target : String) (v : Value) :
    ((m.assign m.current target v).2.scopes.get owner).find? name =
      (m.scopes.get owner).find? name :=
  Scopes.find?_assign v fun _ => h.off

theorem assign (h : m.Detached name owner) (target : String) (v : Value) :
    (m.assign m.current target v).2.Detached name owner where
  isRanged := Nat.lt_of_lt_of_le h.isRanged (Precedes.assign m m.current target v).size_le
  bound := by
    rw [h.find?_assign]
    exact h.bound
  off hrefers := by
    obtain ⟨b, hb⟩ := h.bound
    exact h.off ((Precedes.assign m m.current target v).refers hb h.isRanged hrefers)

/-- An inner scope hides the binding, if anything. -/
theorem enter (h : m.Detached name owner) (bindings : List Binding) :
    (m.enter m.current bindings).Detached name owner where
  isRanged := m.isRanged_enter _ _
  bound := by
    rw [Machine.get_enter_of_lt _ _ _ h.owner_lt]
    exact h.bound
  off hrefers := by
    obtain ⟨b, hb⟩ := h.bound
    rcases hrefers.cases with ⟨heq, -⟩ | ⟨-, parent, hparent, -, houter⟩
    · exact absurd (heq.trans (m.current_enter _ _)) (Nat.ne_of_lt h.owner_lt)
    · rw [Machine.current_enter, Machine.get_enter_self] at hparent
      obtain rfl := Option.some.inj hparent
      exact h.off ((Precedes.enter m m.current bindings).refers hb h.isRanged houter)

end Machine.Detached

/-- A name does not come to stand for the binding. -/
theorem Chronicle.detached (h : Chronicle limits m journal n) (hm : m.Detached name owner) :
    n.Detached name owner where
  isRanged := (h.isRanged hm.isRanged).1
  bound := by
    obtain ⟨b, hb⟩ := hm.bound
    exact (h.precedes.1.scope owner hm.owner_lt).exists_find? hb
  off hrefers := by
    obtain ⟨b, hb⟩ := hm.bound
    exact hm.off (h.refers hm.isRanged hb hrefers)

/-- Where the name does not stand for the binding, only calls of functions that were made where it
does assign to it. -/
theorem Chronicle.during (h : Chronicle limits m journal n) (hm : m.Detached name owner) :
    Throughout (AssignsInCall name owner) journal := by
  induction h with
  | step | copy => exact .nil
  | @note e h =>
      refine .of_forall fun past e' he' => ?_
      obtain rfl := List.mem_singleton.mp he'
      rintro ⟨value, span, m, rfl, -⟩
      exact absurd rfl (h _ _)
  | append h h' ih ih' =>
      exact (ih hm).append ((ih' (h.detached hm)).mono fun _ _ hpast => hpast.before _)
  | answer hjournal hleaves hcurrent h ih =>
      refine .cons ?_ ((ih hm).mono fun _ _ hpast => hpast.before [_])
      rintro ⟨value, span, m', heq, hrefers⟩
      cases heq
      exact absurd hrefers hm.off
  | assign hcurrent h hnotes ih =>
      refine .cons ?_ (.append ((ih hm).mono fun _ _ hpast => hpast.before [_]) ?_)
      · rintro ⟨value, span, m', heq, hrefers⟩
        cases heq
        exact absurd hrefers hm.off
      · refine .of_forall fun past e he => ?_
        rintro ⟨value, span, m', rfl, -⟩
        exact absurd rfl ((hnotes _ he).2 _ _)
  | block h ih => exact ih (hm.enter _)
  | frame h ih => exact ih ⟨hm.isRanged, hm.bound, hm.off⟩
  | @call m before entered n frame body scope journal hbefore henters hbegan h ih =>
      have hprecedes := hbefore.precedes.trans henters.precedes
      obtain ⟨b, hb⟩ := hm.bound
      by_cases hrefers : entered.scopes.Refers scope name owner
      · -- everything that happens, happens in a call of this function
        intro past e later heq hassigns
        obtain ⟨value, span, m', rfl, -⟩ := id hassigns
        have hmem : .began (.evaluate (.assign name value span)) m' ∈ journal := by
          rw [heq]
          simp
        obtain ⟨rest, hjournal⟩ := hbegan _ _ hmem
        rcases List.cons_eq_append_iff.mp (hjournal ▸ heq) with ⟨-, hcons⟩ | ⟨since, rfl, hrest⟩
        · cases hcons
        · refine ⟨[], body, entered, since, scope, rfl, henters.runs, hrefers, fun e he => ?_⟩
          refine h.frames.2 e ?_
          rw [heq]
          rcases List.mem_append.mp he with he | he
          · simp [he]
          · obtain rfl := List.mem_singleton.mp he
            simp
      · refine ih ⟨henters.isRanged.2, (hprecedes.scope owner hm.owner_lt).exists_find? hb, ?_⟩
        have hlt := Nat.lt_of_lt_of_le hm.owner_lt hbefore.precedes.size_le
        exact fun hcurrent => hrefers (henters.refers hlt hcurrent)

/-- The binding stays intact, unless functions that were made where the name stands for it assign to
it in calls. -/
structure Spares
    (name : String)
    (owner : ScopeId)
    (b? : Option Binding)
    (journal : List Event)
    (n : Machine) :
    Prop where
  intact : StaysIntact name owner b? journal n
  inCalls : Throughout (AssignsInCall name owner) journal

namespace Spares

theorem nil (n : Machine) : Spares name owner ((n.scopes.get owner).find? name) [] n :=
  ⟨.nil rfl, .nil⟩

theorem append
    {later : List Event}
    {o : Machine}
    (h : Spares name owner b? journal n)
    (h' : Spares name owner ((n.scopes.get owner).find? name) later o) :
    Spares name owner b? (journal ++ later) o where
  intact := h.intact.append fun hn => hn ▸ h'.intact
  inCalls := h.inCalls.append (h'.inCalls.mono fun _ _ hpast => hpast.before journal)

/-- Another scope and other calls may be current in the end. -/
theorem of_scopes
    {o : Machine}
    (h : Spares name owner b? journal n)
    (ho : o.scopes = n.scopes) :
    Spares name owner b? journal o := by
  refine ⟨⟨h.intact.events, ?_⟩, h.inCalls⟩
  unfold Intact
  rw [ho]
  exact h.intact.last

/-- Nothing begins, and only on machines with the binding. -/
theorem of_notes
    (h : ∀ e ∈ journal, e.machine = n ∧ ∀ q m, e ≠ .began q m) :
    Spares name owner ((n.scopes.get owner).find? name) journal n where
  intact := .of_forall (fun e he => by rw [(h e he).1]) rfl
  inCalls := .of_forall fun _ e he => by
    rintro ⟨value, span, m, rfl, -⟩
    exact absurd rfl ((h _ he).2 _ _)

end Spares

theorem Chronicle.spares (h : Chronicle limits m journal n) (hm : m.Detached name owner) :
    Spares name owner ((m.scopes.get owner).find? name) journal n :=
  ⟨h.intact hm.isRanged hm.owner_lt hm.ne_current, h.during hm⟩

section OwnCode

/-- In the current scope, the name stands for a binding of the scope `low` or of a newer one. -/
def Machine.BindsSince (m : Machine) (name : String) (low : ScopeId) : Prop :=
  ∃ owner, low ≤ owner ∧ m.scopes.Refers m.current name owner

namespace Machine.BindsSince

variable {low : ScopeId}

theorem later
    (h : m.BindsSince name low)
    (hm : m.IsRanged)
    (hprecedes : m.Precedes n)
    (hcurrent : n.current = m.current) :
    n.BindsSince name low := by
  obtain ⟨owner, hle, hrefers⟩ := h
  obtain ⟨owner', hle', hrefers'⟩ := Scopes.Kept.exists_refers hprecedes hm hrefers
  exact ⟨owner', Nat.le_trans hle hle', hcurrent ▸ hrefers'⟩

theorem enter (h : m.BindsSince name low) (hm : m.IsRanged) (bindings : List Binding) :
    (m.enter m.current bindings).BindsSince name low := by
  obtain ⟨owner, hle, hrefers⟩ := h
  have hprecedes := Precedes.enter m m.current bindings
  obtain ⟨owner', hle', houter⟩ := Scopes.Kept.exists_refers hprecedes hm hrefers
  unfold BindsSince
  rw [current_enter]
  cases hfind : ((m.enter m.current bindings).scopes.get m.scopes.all.size).find? name with
  | some b =>
      refine ⟨m.scopes.all.size, ?_, Scopes.refers_self hfind⟩
      exact Nat.le_trans hle (Nat.le_trans hrefers.le (Nat.le_of_lt hm))
  | none =>
      refine ⟨owner', Nat.le_trans hle hle', houter.of_parent hfind ?_ hm⟩
      exact congrArg Scope.parent (get_enter_self _ _ _)

theorem enterCopy (h : m.BindsSince name low) (hm : m.IsRanged) :
    (m.enterCopy m.current).BindsSince name low := by
  obtain ⟨owner, hle, hrefers⟩ := h
  have hprecedes := Precedes.enterCopy m m.current
  have hcopy : (m.enterCopy m.current).scopes.get m.scopes.all.size = m.scopes.get m.current :=
    Scopes.get_create_self _ _
  rcases hrefers.cases with ⟨rfl, b, hb⟩ | ⟨hnone, parent, hparent, hlt, houter⟩
  · exact ⟨m.scopes.all.size, Nat.le_trans hle (Nat.le_of_lt hm),
      Scopes.refers_self (hcopy.symm ▸ hb)⟩
  · have hparentLt := Nat.lt_trans hlt hm
    obtain ⟨owner', hle', houter'⟩ := Scopes.Kept.exists_refers hprecedes hparentLt houter
    exact ⟨owner', Nat.le_trans hle hle',
      houter'.of_parent (hcopy.symm ▸ hnone) (hcopy.symm ▸ hparent) hparentLt⟩

end Machine.BindsSince

/-- What happens outside of calls does so where the name stands for something that is as new. -/
theorem Chronicle.bindsSince
    {low : ScopeId}
    (h : Chronicle limits m journal n)
    (hm : m.IsRanged)
    (hbinds : m.BindsSince name low) :
    n.BindsSince name low ∧
      ∀ e ∈ journal, e.machine.frames.length = m.frames.length →
        e.machine.BindsSince name low := by
  induction h with
  | step h => exact ⟨hbinds.later hm h.precedes h.current, by simp⟩
  | copy h => exact ⟨hbinds.enterCopy hm, by simp⟩
  | note h => exact ⟨hbinds, by simpa using hbinds⟩
  | append h h' ih ih' =>
      obtain ⟨hmiddle, hevents⟩ := ih hm hbinds
      obtain ⟨hlast, hevents'⟩ := ih' (h.isRanged hm).1 hmiddle
      rw [h.frames.1] at hevents'
      exact ⟨hlast, fun e he => (List.mem_append.mp he).elim (hevents e) (hevents' e)⟩
  | answer hjournal hleaves hcurrent h ih =>
      obtain ⟨hlast, hevents⟩ := ih hm hbinds
      refine ⟨hlast, fun e he => ?_⟩
      rcases List.mem_cons.mp he with rfl | he
      · exact fun _ => hbinds
      · exact hevents e he
  | @assign m n target value span v journal notes hcurrent h hnotes ih =>
      obtain ⟨hlast, hevents⟩ := ih hm hbinds
      have hassigned := hlast.later (h.isRanged hm).1
        (Machine.Precedes.assign n n.current target v) rfl
      refine ⟨hassigned, fun e he => ?_⟩
      rcases List.mem_cons.mp he with rfl | he
      · exact fun _ => hbinds
      rcases List.mem_append.mp he with he | he
      · exact hevents e he
      · exact fun _ => (hnotes e he).1 ▸ hassigned
  | @block m n bindings journal h ih =>
      obtain ⟨-, hevents⟩ := ih (m.isRanged_enter _ _) (hbinds.enter hm bindings)
      rw [Machine.frames_enter] at hevents
      exact ⟨hbinds.later hm ((Machine.Precedes.enter m _ _).trans h.precedes.1) rfl, hevents⟩
  | @frame m n frame journal h ih =>
      refine ⟨(ih hm hbinds).1, fun e he heq => ?_⟩
      exact absurd (h.frames.2 e he) (by simp [Machine.pushFrame, heq])
  | @call m before entered n frame _ _ journal hbefore henters _ h ih =>
      have hprecedes := (hbefore.precedes.trans henters.precedes).trans h.precedes.1
      refine ⟨hbinds.later hm hprecedes rfl, fun e he heq => ?_⟩
      have hle := h.frames.2 e he
      rw [henters.frames, hbefore.frames, heq] at hle
      exact absurd hle (Nat.not_succ_le_self _)

end OwnCode

section Aftermaths

/-- The journal goes on with the execution of the statement, which was begun on the machine, and
what comes after that spares the bindings of the scopes that were made in the execution. -/
structure Aftermath
    (limits : Limits)
    (s : Stmt)
    (m : Machine)
    (room : Nat)
    (inner rest : List Event)
    (n : Machine) :
    Prop where
  journal : (Recorder.ofRoom limits room).journal (.execute s) m = .began (.execute s) m :: inner
  isRanged : m.IsRanged
  spares : ∀ name owner, m.scopes.all.size ≤ owner →
    (∃ b, (((Recorder.ofRoom limits room).evaluator.leaves (.execute s) m).scopes.get owner).find?
      name = some b) →
    Spares name owner
        ((((Recorder.ofRoom limits room).evaluator.leaves (.execute s) m).scopes.get owner).find?
          name)
        rest n ∧
      n.Detached name owner

variable {s : Stmt} {room : Nat} {inner rest : List Event}

namespace Aftermath

/-- More comes after that. -/
theorem append
    {later : List Event}
    {o : Machine}
    (h : Aftermath limits s m room inner rest n)
    (hlater : Chronicle limits n later o) :
    Aftermath limits s m room inner (rest ++ later) o where
  journal := h.journal
  isRanged := h.isRanged
  spares name owner howner hbound := by
    obtain ⟨hspares, hdetached⟩ := h.spares name owner howner hbound
    exact ⟨hspares.append (hlater.spares hdetached), hlater.detached hdetached⟩

/-- An older scope becomes the current one. -/
theorem leave
    {o : Machine}
    (h : Aftermath limits s m room inner rest n)
    (hscopes : o.scopes = n.scopes)
    (hranged : o.IsRanged)
    (hlt : o.current < m.scopes.all.size) :
    Aftermath limits s m room inner rest o where
  journal := h.journal
  isRanged := h.isRanged
  spares name owner howner hbound := by
    obtain ⟨hspares, hdetached⟩ := h.spares name owner howner hbound
    exact ⟨hspares.of_scopes hscopes,
      .of_lt hranged (hscopes ▸ hdetached.bound) (Nat.lt_of_lt_of_le hlt howner)⟩

end Aftermath

/-- **Aftermath.** What a chronicle tells of a statement and of what comes after it. -/
theorem Chronicle.after_execute
    {journal past later : List Event}
    {m' : Machine}
    (h : Chronicle limits m journal n)
    (hm : m.IsRanged)
    (hjournal : journal = past ++ .began (.execute s) m' :: later) :
    ∃ room inner rest, later = inner ++ rest ∧ Aftermath limits s m' room inner rest n := by
  induction h generalizing past later with
  | step | copy => simp at hjournal
  | note h =>
      obtain ⟨rfl, rfl, -⟩ : past = [] ∧ _ ∧ _ := by
        simpa [List.singleton_eq_append_iff] using hjournal
      exact absurd rfl (h _ _)
  | append h h' ih ih' =>
      rcases append_eq_append_cons.mp hjournal with ⟨middle, hfirst, rfl⟩ | ⟨middle, -, hsecond⟩
      · obtain ⟨room, inner, rest, rfl, hafter⟩ := ih hm hfirst
        exact ⟨room, inner, rest ++ _, by simp, hafter.append h'⟩
      · exact ih' (h.isRanged hm).1 hsecond
  | @answer m n room q journal hanswer hleaves hcurrent h ih =>
      rcases List.cons_eq_append_iff.mp hjournal with ⟨-, hcons⟩ | ⟨past, -, hrest⟩
      · obtain ⟨hevent, rfl⟩ := List.cons.inj hcons
        cases hevent
        refine ⟨room, later, [], by simp, hanswer, hm, fun name owner howner hbound => ?_⟩
        rw [hleaves] at hbound ⊢
        exact ⟨.nil n, .of_lt (h.isRanged hm).1 hbound
          (hcurrent ▸ Nat.lt_of_lt_of_le hm howner)⟩
      · exact ih hm hrest
  | @assign m n target _ _ v journal notes hcurrent h hnotes ih =>
      rcases List.cons_eq_append_iff.mp hjournal with ⟨-, hcons⟩ | ⟨past, -, hrest⟩
      · cases (List.cons.inj hcons).1
      rcases append_eq_append_cons.mp hrest with ⟨middle, hfirst, rfl⟩ | ⟨middle, -, hsecond⟩
      · obtain ⟨room, inner, rest, rfl, hafter⟩ := ih hm hfirst
        refine ⟨room, inner, rest ++ notes, by simp, hafter.journal, hafter.isRanged,
          fun name owner howner hbound => ?_⟩
        obtain ⟨hspares, hdetached⟩ := hafter.spares name owner howner hbound
        have hlast : Spares name owner _ notes _ := .of_notes hnotes
        rw [hdetached.find?_assign] at hlast
        exact ⟨hspares.append hlast, hdetached.assign target v⟩
      · have hmem : .began (.execute s) m' ∈ notes := List.mem_iff_append.mpr ⟨_, _, hsecond⟩
        exact absurd rfl ((hnotes _ hmem).2 _ _)
  | @block m n bindings journal h ih =>
      obtain ⟨room, inner, rest, rfl, hafter⟩ := ih (m.isRanged_enter _ _) hjournal
      have hblock := Chronicle.block h
      have hmem : .began (.execute s) m' ∈ journal := List.mem_iff_append.mpr ⟨_, _, hjournal⟩
      refine ⟨room, inner, rest, rfl, hafter.leave rfl (hblock.isRanged hm).1 ?_⟩
      exact Nat.lt_of_lt_of_le hm (hblock.precedes.2 _ hmem).size_le
  | frame h ih =>
      obtain ⟨room, inner, rest, rfl, hafter⟩ := ih hm hjournal
      refine ⟨room, inner, rest, rfl, hafter.journal, hafter.isRanged,
        fun name owner howner hbound => ?_⟩
      obtain ⟨hspares, hdetached⟩ := hafter.spares name owner howner hbound
      exact ⟨hspares.of_scopes rfl, hdetached.isRanged, hdetached.bound, hdetached.off⟩
  | @call m _ _ n _ _ _ journal hbefore henters hbegan h ih =>
      obtain ⟨room, inner, rest, rfl, hafter⟩ := ih henters.isRanged.2 hjournal
      have hcall := Chronicle.call hbefore henters hbegan h
      have hmem : .began (.execute s) m' ∈ journal := List.mem_iff_append.mpr ⟨_, _, hjournal⟩
      refine ⟨room, inner, rest, rfl, hafter.leave rfl (hcall.isRanged hm).1 ?_⟩
      exact Nat.lt_of_lt_of_le hm (hcall.precedes.2 _ hmem).size_le

end Aftermaths

end Lox
