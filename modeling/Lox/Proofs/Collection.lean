import Lox.Collection.Dictionary
import Lox.Collection.Sequence
import Lox.Proofs.Simulation

/-!
# Values in lists and maps

The operations on lists and maps make no values of their own but plain ones: what they return and
what they leave in the collection was there before or was given to them. This is said with a
property `P` of values that all plain values have.
-/

namespace Lox

variable {P : Value → Prop}

namespace Sequence

/-- On elements with the property, the operation returns a value with the property and leaves such
elements. -/
def Keeps (P : Value → Prop) (operation : Sequence → Attempt Sequence Value) : Prop :=
  ∀ elements : Sequence, (∀ v ∈ elements, P v) →
    (∀ v, (operation elements).1 = .ok v → P v) ∧ ∀ v ∈ (operation elements).2, P v

section Read

variable {elements : Sequence} (helements : ∀ v ∈ elements, P v)
include helements

theorem getD_holds (hnil : P .nil) (i : Nat) : P (elements[i]?.getD .nil) := by
  cases hi : elements[i]? with
  | none => exact hnil
  | some v => exact helements v (Array.mem_of_getElem? hi)

theorem item_holds (hnil : P .nil) (index : Value) :
    ∀ v, item elements index = .ok v → P v := by
  intro v h
  simp only [item] at h
  cases hposition : position index elements.size elements.size with
  | error fault =>
      rw [hposition] at h
      cases h
  | ok i =>
      rw [hposition] at h
      cases h
      exact getD_holds helements hnil i

end Read

theorem keeps_setItem {v : Value} (hv : P v) (index : Value) : Keeps P (setItem index v) := by
  intro elements helements
  simp only [setItem]
  cases position index elements.size elements.size with
  | error fault => exact ⟨by simp, helements⟩
  | ok i =>
      refine ⟨fun w hw => by cases hw; exact hv, fun w hw => ?_⟩
      rcases Array.mem_or_eq_of_mem_setIfInBounds hw with hw | rfl
      · exact helements w hw
      · exact hv

theorem keeps_pop : Keeps P pop := by
  intro elements helements
  simp only [pop]
  cases hback : elements.back? with
  | none => exact ⟨by simp, helements⟩
  | some last =>
      refine ⟨fun w hw => ?_, fun w hw => ?_⟩
      · cases hw
        exact helements last (Array.mem_of_back? hback)
      · have hlist : w ∈ elements.toList.dropLast := by
          rw [← Array.toList_pop]
          exact Array.mem_toList_iff.mpr hw
        exact helements w (Array.mem_toList_iff.mp (List.dropLast_subset _ hlist))

variable (hplain : ∀ {v : Value}, v.isPlain = true → P v)
include hplain

theorem keeps_add {v : Value} (hv : P v) : Keeps P (add v) := by
  intro elements helements
  refine ⟨fun w hw => by cases hw; exact hplain rfl, fun w hw => ?_⟩
  rcases Array.mem_push.mp hw with hw | rfl
  · exact helements w hw
  · exact hv

theorem keeps_insert {v : Value} (hv : P v) (index : Value) : Keeps P (insert index v) := by
  intro elements helements
  simp only [insert]
  cases position index (elements.size + 1) elements.size with
  | error fault => exact ⟨by simp, helements⟩
  | ok i =>
      refine ⟨fun w hw => by cases hw; exact hplain rfl, fun w hw => ?_⟩
      simp only [Array.insertIdxIfInBounds] at hw
      split at hw
      · rcases Array.mem_insertIdx.mp hw with rfl | hw
        · exact hv
        · exact helements w hw
      · exact helements w hw

theorem keeps_removeAt (index : Value) : Keeps P (removeAt index) := by
  intro elements helements
  simp only [removeAt]
  cases position index elements.size elements.size with
  | error fault => exact ⟨by simp, helements⟩
  | ok i =>
      refine ⟨fun w hw => ?_, fun w hw => ?_⟩
      · cases hw
        exact getD_holds helements (hplain rfl) i
      · simp only [Array.eraseIdxIfInBounds_eq] at hw
        split at hw
        · exact helements w (Array.mem_of_mem_eraseIdx hw)
        · exact helements w hw

theorem keeps_clear : Keeps P clear :=
  fun _ _ => ⟨fun _ hw => by cases hw; exact hplain rfl, by simp [clear]⟩

end Sequence

namespace Dictionary

/-- On entries with values that have the property, the operation returns such a value and leaves
such entries. -/
def Keeps (P : Value → Prop) (operation : Dictionary → Attempt Dictionary Value) : Prop :=
  ∀ entries : Dictionary, (∀ entry ∈ entries, P entry.2) →
    (∀ v, (operation entries).1 = .ok v → P v) ∧ ∀ entry ∈ (operation entries).2, P entry.2

theorem find?_holds
    {entries : Dictionary} {key : Key}
    (hentries : ∀ entry ∈ entries, P entry.2) :
    ∀ v ∈ entries.find? key, P v := by
  intro v hv
  obtain ⟨entry, hfind, rfl⟩ := Option.map_eq_some_iff.mp hv
  exact hentries entry (List.mem_of_find?_eq_some hfind)

theorem item_holds
    {entries : Dictionary}
    (hentries : ∀ entry ∈ entries, P entry.2)
    (key : Value) :
    ∀ v, item entries key = .ok v → P v := by
  intro v h
  simp only [item] at h
  cases hkey : Key.ofValue key with
  | error fault =>
      rw [hkey] at h
      cases h
  | ok key =>
      rw [hkey] at h
      cases hfind : entries.find? key with
      | none => simp [hfind, bind, Except.bind, throw, throwThe, MonadExceptOf.throw] at h
      | some w =>
          simp only [hfind, bind, Except.bind] at h
          obtain rfl : w = v := Except.ok.inj h
          exact find?_holds hentries w hfind

theorem itemOr_holds
    {entries : Dictionary} {substitute : Value}
    (hentries : ∀ entry ∈ entries, P entry.2)
    (hsubstitute : P substitute)
    (key : Value) :
    ∀ v, itemOr entries key substitute = .ok v → P v := by
  intro v h
  simp only [itemOr] at h
  cases hkey : Key.ofValue key with
  | error fault =>
      rw [hkey] at h
      cases h
  | ok key =>
      rw [hkey] at h
      cases h
      cases hfind : entries.find? key with
      | none => exact hsubstitute
      | some w => exact find?_holds hentries w hfind

theorem put_holds
    {v : Value}
    (hv : P v)
    (key : Key)
    {entries : Dictionary}
    (hentries : ∀ entry ∈ entries, P entry.2) :
    ∀ entry ∈ entries.put key v, P entry.2 := by
  intro entry hentry
  induction entries with
  | nil =>
      cases List.mem_singleton.mp hentry
      exact hv
  | cons first rest ih =>
      simp only [put] at hentry
      split at hentry
      · rcases List.mem_cons.mp hentry with rfl | hentry
        · exact hv
        · exact hentries entry (List.mem_cons_of_mem _ hentry)
      · rcases List.mem_cons.mp hentry with rfl | hentry
        · exact hentries entry List.mem_cons_self
        · exact ih (fun e he => hentries e (List.mem_cons_of_mem _ he)) hentry

theorem keeps_setItem {v : Value} (hv : P v) (key : Value) : Keeps P (setItem key v) := by
  intro entries hentries
  simp only [setItem]
  cases Key.ofValue key with
  | error fault => exact ⟨by simp, hentries⟩
  | ok key => exact ⟨fun w hw => by cases hw; exact hv, put_holds hv key hentries⟩

theorem values_holds
    {entries : Dictionary}
    (hentries : ∀ entry ∈ entries, P entry.2) :
    ∀ v ∈ entries.values, P v := by
  intro v hv
  obtain ⟨entry, hentry, rfl⟩ := List.mem_map.mp (List.mem_toArray.mp hv)
  exact hentries entry hentry

variable (hplain : ∀ {v : Value}, v.isPlain = true → P v)
include hplain

theorem key_holds (key : Key) : P key.toValue := by
  cases key <;> exact hplain rfl

theorem keys_holds (entries : Dictionary) : ∀ v ∈ entries.keys, P v := by
  intro v hv
  obtain ⟨entry, -, rfl⟩ := List.mem_map.mp (List.mem_toArray.mp hv)
  exact key_holds hplain entry.1

theorem has_holds (entries : Dictionary) (key : Value) :
    ∀ v, has entries key = .ok v → P v := by
  intro v h
  simp only [has] at h
  cases hkey : Key.ofValue key with
  | error fault =>
      rw [hkey] at h
      cases h
  | ok key =>
      rw [hkey] at h
      cases h
      exact hplain rfl

theorem keeps_remove (key : Value) : Keeps P (remove key) := by
  intro entries hentries
  simp only [remove]
  cases Key.ofValue key with
  | error fault => exact ⟨by simp, hentries⟩
  | ok key =>
      refine ⟨fun w hw => by cases hw; exact hplain rfl, fun entry hentry => ?_⟩
      exact hentries entry (List.mem_filter.mp hentry).1

theorem keeps_clear : Keeps P clear :=
  fun _ _ => ⟨fun _ hw => by cases hw; exact hplain rfl, by simp [clear]⟩

end Dictionary

theorem Eval.mem_putNamed
    {α : Type} {name : String} {a : α} {entry : String × α} {entries : List (String × α)}
    (h : entry ∈ Eval.putNamed name a entries) :
    entry = (name, a) ∨ entry ∈ entries := by
  induction entries with
  | nil => exact .inl (List.mem_singleton.mp h)
  | cons first rest ih =>
      simp only [putNamed] at h
      split at h
      · rcases List.mem_cons.mp h with rfl | h
        · exact .inl rfl
        · exact .inr (List.mem_cons_of_mem _ h)
      · rcases List.mem_cons.mp h with rfl | h
        · exact .inr List.mem_cons_self
        · exact (ih h).imp_right (List.mem_cons_of_mem _)

end Lox
