import Lox.Proofs.Equality

/-!
# Association lists

A list of pairs of a key and a value, whose keys are compared by the equality of the language, is
what a map is to the programmer. `Dictionary.association` is a dictionary in this view. As long as
no two keys are equal (`Association.Distinct`), its operations are those of association lists.
-/

namespace Lox

/-- A list of keys with their values. -/
abbrev Association := List (Value × Value)

namespace Association

/-- The value with a key. -/
def get? (entries : Association) (key : Value) : Option Value :=
  (List.find? (fun entry => entry.1.equals key) entries).map (·.2)

/-- Is there a value with the key? -/
def contains (entries : Association) (key : Value) : Bool :=
  List.any entries (fun entry => entry.1.equals key)

/-- Set the value with a key: in place if there is one, otherwise at the end. -/
def set (entries : Association) (key value : Value) : Association :=
  if entries.contains key then
    entries.map fun entry => if entry.1.equals key then (entry.1, value) else entry
  else
    entries ++ [(key, value)]

/-- Remove the first entry with a key. -/
def remove (entries : Association) (key : Value) : Association :=
  List.eraseP (fun entry => entry.1.equals key) entries

/-- No two keys are equal. -/
def Distinct (entries : Association) : Prop :=
  (List.map (·.1) entries).Pairwise fun a b => a.equals b = false

variable {entries : Association} {entry : Value × Value} {key value : Value}

theorem isSome_get? (entries : Association) (key : Value) :
    (entries.get? key).isSome = entries.contains key := by
  rw [get?, Option.isSome_map, List.isSome_find?]
  rfl

section Entries

/-- Keys that equal the same key are equal. -/
theorem equals_of_equals {a b : Value} (ha : a.equals key = true) (hb : b.equals key = true) :
    a.equals b = true :=
  Value.equals_trans ha (Value.equals_symm hb)

/-- At most one of the keys equals a given one. -/
theorem Distinct.equals_eq_false
    (h : Distinct (entry :: entries))
    (hkey : entry.1.equals key = true) :
    ∀ other ∈ entries, other.1.equals key = false := by
  intro other hother
  have hne := (List.pairwise_cons.mp h).1 other.1 (List.mem_map_of_mem hother)
  refine Bool.eq_false_iff.mpr fun hequal => ?_
  rw [equals_of_equals hkey hequal] at hne
  cases hne

theorem Distinct.tail (h : Distinct (entry :: entries)) : entries.Distinct :=
  (List.pairwise_cons.mp h).2

theorem set_cons_of_equals (h : Distinct (entry :: entries)) (hkey : entry.1.equals key = true) :
    Association.set (entry :: entries) key value = (entry.1, value) :: entries := by
  have hothers : entries.map (fun other =>
      if other.1.equals key then (other.1, value) else other) = entries := by
    refine (List.map_congr_left fun other hother => ?_).trans entries.map_id
    simp [h.equals_eq_false hkey other hother]
  simp [set, contains, hkey, hothers]

theorem set_cons_of_not_equals (hkey : entry.1.equals key = false) :
    Association.set (entry :: entries) key value = entry :: entries.set key value := by
  have hcontains : Association.contains (entry :: entries) key = entries.contains key := by
    simp only [contains, List.any_cons, hkey, Bool.false_or]
  unfold set
  rw [hcontains]
  split
  · simp [hkey]
  · rfl

theorem remove_cons_of_equals (hkey : entry.1.equals key = true) :
    Association.remove (entry :: entries) key = entries :=
  List.eraseP_cons_of_pos hkey

theorem remove_cons_of_not_equals (hkey : entry.1.equals key = false) :
    Association.remove (entry :: entries) key = entry :: entries.remove key :=
  List.eraseP_cons_of_neg (by simp [hkey])

end Entries

section Laws

/-- Overwriting keeps all places and all keys. -/
theorem keys_set_of_contains (h : entries.contains key = true) :
    (entries.set key value).map (·.1) = entries.map (·.1) := by
  rw [set, if_pos h, List.map_map]
  refine List.map_congr_left fun entry _ => ?_
  simp only [Function.comp_apply]
  split <;> rfl

theorem set_of_not_contains (h : entries.contains key = false) :
    entries.set key value = entries ++ [(key, value)] := by
  simp [set, h]

theorem Distinct.set (h : entries.Distinct) (key value : Value) :
    (entries.set key value).Distinct := by
  cases hcontains : entries.contains key with
  | true =>
      rw [Distinct, keys_set_of_contains hcontains]
      exact h
  | false =>
      rw [Distinct, set_of_not_contains hcontains, List.map_append, List.pairwise_append]
      refine ⟨h, List.pairwise_singleton _ _, fun a ha b hb => ?_⟩
      obtain ⟨entry, hentry, rfl⟩ := List.mem_map.mp ha
      obtain rfl := List.mem_singleton.mp hb
      exact Bool.eq_false_iff.mpr (List.any_eq_false.mp hcontains entry hentry)

theorem Distinct.remove (h : entries.Distinct) (key : Value) : (entries.remove key).Distinct :=
  List.Pairwise.sublist (List.eraseP_sublist.map _) h

/-- After the removal of a key there is none that equals it. -/
theorem contains_remove (h : entries.Distinct) (key : Value) :
    (entries.remove key).contains key = false := by
  induction entries with
  | nil => rfl
  | cons entry rest ih =>
      cases hkey : entry.1.equals key with
      | true =>
          rw [remove_cons_of_equals hkey]
          exact List.any_eq_false.mpr fun other hother =>
            Bool.eq_false_iff.mp (h.equals_eq_false hkey other hother)
      | false =>
          have hrest := ih h.tail
          rw [remove_cons_of_not_equals hkey]
          simp only [contains, List.any_cons, hkey, Bool.false_or] at hrest ⊢
          exact hrest

/-- What is removed and set again comes last. -/
theorem set_remove (h : entries.Distinct) (key value : Value) :
    (entries.remove key).set key value = entries.remove key ++ [(key, value)] :=
  set_of_not_contains (contains_remove h key)

/-- The value of an entry is found under all keys that equal its own. -/
theorem get?_eq_some (h : entries.Distinct) (hentry : entry ∈ entries)
    (hkey : entry.1.equals key = true) :
    entries.get? key = some entry.2 := by
  induction entries with
  | nil => cases hentry
  | cons first rest ih =>
      cases hfirst : first.1.equals key with
      | true =>
          rcases List.mem_cons.mp hentry with rfl | hrest
          · simp [get?, hkey]
          · rw [h.equals_eq_false hfirst entry hrest] at hkey
            cases hkey
      | false =>
          rcases List.mem_cons.mp hentry with rfl | hrest
          · rw [hkey] at hfirst
            cases hfirst
          · have hfound := ih h.tail hrest
            simp only [get?, List.find?_cons, hfirst] at hfound ⊢
            exact hfound

end Laws

end Association

namespace Dictionary

/-- The entries as a list of values. -/
def association (entries : Dictionary) : Association :=
  entries.map fun entry => (entry.1.toValue, entry.2)

theorem toList_keys (entries : Dictionary) :
    entries.keys.toList = entries.association.map (·.1) := by
  simp [keys, association]

theorem toList_values (entries : Dictionary) :
    entries.values.toList = entries.association.map (·.2) := by
  simp [values, association]

theorem length_association (entries : Dictionary) :
    entries.association.length = entries.length :=
  List.length_map _

theorem association_find? (entries : Dictionary) (key : Key) :
    entries.association.get? key.toValue = entries.find? key := by
  simp only [association, Association.get?, find?, List.find?_map, Option.map_map]
  rfl

theorem association_put
    {entries : Dictionary}
    (h : entries.association.Distinct)
    (key : Key)
    (value : Value) :
    (entries.put key value).association = entries.association.set key.toValue value := by
  induction entries with
  | nil => rfl
  | cons entry rest ih =>
      unfold put
      split
      · next hkey => exact (Association.set_cons_of_equals h hkey).symm
      · next hkey =>
          have hkey' : entry.1.toValue.equals key.toValue = false := Bool.eq_false_iff.mpr hkey
          have hput := congrArg (List.cons (entry.1.toValue, entry.2)) (ih h.tail)
          exact hput.trans (Association.set_cons_of_not_equals hkey').symm

theorem association_without
    {entries : Dictionary}
    (h : entries.association.Distinct)
    (key : Key) :
    (entries.without key).association = entries.association.remove key.toValue := by
  induction entries with
  | nil => rfl
  | cons entry rest ih =>
      unfold without
      cases hkey : entry.1.same key with
      | true =>
          -- no other key equals this one, and so nothing else is left out
          have hothers : rest.filter (fun other => !other.1.same key) = rest := by
            refine List.filter_eq_self.mpr fun other hother => ?_
            have hne := h.equals_eq_false hkey _ (List.mem_map_of_mem hother)
            exact Bool.not_eq_true' _ ▸ hne
          rw [List.filter_cons_of_neg (by simp [hkey]), hothers]
          have hkey' : entry.1.toValue.equals key.toValue = true := hkey
          exact (Association.remove_cons_of_equals hkey').symm
      | false =>
          rw [List.filter_cons_of_pos (by simp [hkey])]
          have hkey' : entry.1.toValue.equals key.toValue = false := hkey
          have hwithout := congrArg (List.cons (entry.1.toValue, entry.2)) (ih h.tail)
          exact hwithout.trans (Association.remove_cons_of_not_equals hkey').symm

end Dictionary

end Lox
