import Lox.Proofs.Collection.Association
import Lox.Proofs.Collection.InTurn

/-!
# The uses of a map

Whatever is done with a map, by indexing it or by calling its methods, is what is done with an
association list: the same results, the same faults, and afterwards the same entries in the same
order. The lists that `keys` and `values` give are new ones that no use changes later. The keys are
strings and numbers, NaN excepted.
-/

namespace Lox

namespace Value

/-- Is the value fit for a key? -/
def isKey : Value → Bool
  | string _ | number _ => true
  | nil | boolean _ | function _ | native _ | «class» _ | «instance» _ | list _ | map _ => false

/-- Is the value NaN? -/
def isNaN : Value → Bool
  | number x => x.isNaN
  | nil | boolean _ | string _ | function _ | native _ | «class» _ | «instance» _ | list _
  | map _ => false

/-- The value as a message about a missing key names it. -/
def asKey : Value → String
  | string s => s!"'{s}'"
  | number x => Number.text x
  | nil | boolean _ | function _ | native _ | «class» _ | «instance» _ | list _ | map _ => ""

theorem equals_self {v : Value} (h : v.isNaN = false) : v.equals v = true := by
  cases v with
  | number x => exact Number.beq_self_iff.mpr h
  | nil | boolean | string | function | native | «class» | «instance» | list | map =>
      simp [equals]

end Value

/-- The keys of a map are fit for keys. -/
theorem Dictionary.isKey_of_mem_association
    {entries : Dictionary} {entry : Value × Value}
    (h : entry ∈ entries.association) :
    entry.1.isKey = true := by
  obtain ⟨⟨key, value⟩, -, rfl⟩ := List.mem_map.mp h
  cases key <;> rfl

/-- A use of a map. -/
inductive MapUse
  | setItem (key value : Value)
  | item (key : Value)
  | has (key : Value)
  | get (key substitute : Value)
  | remove (key : Value)
  | clear
  | keys
  | values
  | length

/-- The entries of a map, and all lists there are. -/
structure MapView where
  entries : Association
  lists : Array Sequence

/-- Make a list. -/
def MapView.newList (view : MapView) (elements : List Value) : Except Fault Value × MapView :=
  (.ok (.list view.lists.size), { view with lists := view.lists.push elements.toArray })

/-- The entries of a map of the machine, and the lists of the machine. -/
def Machine.mapView (m : Machine) (map : MapId) : MapView :=
  ⟨(m.map map).association, m.lists⟩

namespace MapUse

/-- The key that a use is about. -/
def key? : MapUse → Option Value
  | setItem key _ | item key | has key | get key _ | remove key => some key
  | clear | keys | values | length => none

/-- What the program does. -/
def run (map : MapId) : MapUse → Eval Value
  | setItem key value => Eval.setItem (.map map) key value
  | item key => Eval.item (.map map) key
  | has key => Eval.callMapMethod map .has [key]
  | get key substitute => Eval.callMapMethod map .get [key, substitute]
  | remove key => Eval.callMapMethod map .remove [key]
  | clear => Eval.callMapMethod map .clear []
  | keys => Eval.callMapMethod map .keys []
  | values => Eval.callMapMethod map .values []
  | length => Eval.callMapMethod map .length []

/-- What it comes to if the keys are fit. -/
def onEntries (use : MapUse) (view : MapView) : Except Fault Value × MapView :=
  let entries := view.entries
  match use with
  | setItem key value => (.ok value, { view with entries := entries.set key value })
  | item key =>
      match entries.get? key with
      | some value => (.ok value, view)
      | none => (.error (.undefinedKey key.asKey), view)
  | has key => (.ok (.boolean (entries.contains key)), view)
  | get key substitute => (.ok ((entries.get? key).getD substitute), view)
  | remove key =>
      (.ok (.boolean (entries.contains key)), { view with entries := entries.remove key })
  | clear => (.ok .nil, { view with entries := [] })
  | keys => view.newList (entries.map (·.1))
  | values => view.newList (entries.map (·.2))
  | length => (.ok (.ofNat entries.length), view)

/-- What it comes to: nothing is done with a key that is not fit. -/
def onView (use : MapUse) (view : MapView) : Except Fault Value × MapView :=
  match use.key?.filter (!·.isKey) with
  | some key => (.error (.keyKind key.kind), view)
  | none => use.onEntries view

end MapUse

/-- Only the contents of one map may be different, and there may be more lists. -/
structure Machine.SameButMap (map : MapId) (m n : Machine) : Prop where
  maps : n.maps = m.maps.setIfInBounds map (n.map map)
  lists : m.lists.toList <+: n.lists.toList
  rest : n = { m with maps := n.maps, lists := n.lists }

/-- No two keys are equal, and none is NaN. -/
structure Association.Proper (entries : Association) : Prop where
  distinct : entries.Distinct
  notNaN : ∀ entry ∈ entries, entry.1.isNaN = false

namespace Association.Proper

variable {entries : Association} {key : Value}

theorem set (h : entries.Proper) (hkey : key.isNaN = false) (value : Value) :
    (entries.set key value).Proper where
  distinct := h.distinct.set key value
  notNaN entry hentry := by
    cases hcontains : entries.contains key with
    | true =>
        have hmem : entry.1 ∈ entries.map (·.1) := by
          rw [← keys_set_of_contains hcontains]
          exact List.mem_map_of_mem hentry
        obtain ⟨other, hother, heq⟩ := List.mem_map.mp hmem
        exact heq ▸ h.notNaN other hother
    | false =>
        rw [set_of_not_contains hcontains] at hentry
        rcases List.mem_append.mp hentry with hold | hnew
        · exact h.notNaN entry hold
        · rw [List.mem_singleton.mp hnew]
          exact hkey

theorem remove (h : entries.Proper) (key : Value) : (entries.remove key).Proper where
  distinct := h.distinct.remove key
  notNaN entry hentry := h.notNaN entry (List.mem_of_mem_eraseP hentry)

end Association.Proper

namespace Machine

variable {m n o : Machine} {map : MapId}

theorem map_setMap (hmap : map < m.maps.size) (entries : Dictionary) :
    (m.setMap map entries).map map = entries := by
  simp [Machine.map, setMap, hmap]

theorem setMap_map (m : Machine) (map : MapId) : m.setMap map (m.map map) = m := by
  have h : m.maps.setIfInBounds map (m.map map) = m.maps := by
    by_cases hmap : map < m.maps.size
    · simp [Machine.map, hmap, Array.setIfInBounds]
    · exact Array.setIfInBounds_eq_of_size_le (Nat.le_of_not_lt hmap)
  rw [setMap, h]

theorem mapView_setMap (hmap : map < m.maps.size) (entries : Dictionary) :
    (m.setMap map entries).mapView map = ⟨entries.association, m.lists⟩ := by
  rw [mapView, map_setMap hmap]
  rfl

theorem entries_mapView (m : Machine) (map : MapId) :
    (m.mapView map).entries = (m.map map).association :=
  rfl

theorem lists_mapView (m : Machine) (map : MapId) : (m.mapView map).lists = m.lists :=
  rfl

namespace SameButMap

theorem refl (m : Machine) (map : MapId) : m.SameButMap map m where
  maps := (congrArg Machine.maps (m.setMap_map map)).symm
  lists := List.prefix_refl _
  rest := rfl

theorem trans (h : m.SameButMap map n) (h' : n.SameButMap map o) : m.SameButMap map o where
  maps := by
    rw [h'.maps, h.maps]
    simp
  lists := h.lists.trans h'.lists
  rest := by rw [h'.rest, h.rest]

theorem setMap (m : Machine) (map : MapId) (entries : Dictionary) :
    m.SameButMap map (m.setMap map entries) where
  maps := by
    by_cases hmap : map < m.maps.size
    · rw [map_setMap hmap]
      rfl
    · simp [Machine.setMap, Array.setIfInBounds_eq_of_size_le (Nat.le_of_not_lt hmap)]
  lists := List.prefix_refl _
  rest := rfl

theorem newList (m : Machine) (map : MapId) (elements : Sequence) :
    m.SameButMap map (m.newList elements).2 where
  maps := (SameButMap.refl m map).maps
  lists := by
    simp only [Machine.newList, Array.toList_push]
    exact List.prefix_append _ _
  rest := rfl

theorem size_maps (h : m.SameButMap map n) : n.maps.size = m.maps.size := by
  rw [h.maps, Array.size_setIfInBounds]

end SameButMap

end Machine

namespace MapUse

open Eval

variable {m : Machine} {map : MapId} {key : Value}

/-- A value is fit for a key, or it is complained about. -/
theorem ofValue_cases (v : Value) :
    (∃ key, Key.ofValue v = .ok key ∧ v.isKey = true ∧ key.toValue = v ∧ key.described = v.asKey) ∨
      Key.ofValue v = .error (.keyKind v.kind) ∧ v.isKey = false := by
  cases v with
  | string s => exact .inl ⟨.string s, rfl, rfl, rfl, rfl⟩
  | number x => exact .inl ⟨.number x, rfl, rfl, rfl, rfl⟩
  | nil | boolean | function | native | «class» | «instance» | list | map =>
      exact .inr ⟨rfl, rfl⟩

section Run

theorem run_setItem (key value : Value) :
    (setItem key value).run map = attempt fun m => m.onMap map (Dictionary.setItem key value) :=
  rfl

theorem run_item (key : Value) :
    (item key).run map = fun m => ofExcept (Dictionary.item (m.map map) key) m :=
  rfl

theorem run_has (key : Value) :
    (has key).run map = fun m => ofExcept (Dictionary.has (m.map map) key) m :=
  rfl

theorem run_get (key substitute : Value) :
    (get key substitute).run map =
      fun m => ofExcept (Dictionary.itemOr (m.map map) key substitute) m :=
  rfl

theorem run_remove (key : Value) :
    (remove key).run map = attempt fun m => m.onMap map (Dictionary.remove key) :=
  rfl

end Run

/-- With a key that is not fit a use fails and does nothing. -/
theorem run_of_not_isKey {use : MapUse} (huse : use.key? = some key) (hkey : key.isKey = false)
    (m : Machine) :
    use.run map m = .stopped (Fault.keyKind key.kind).interruption m := by
  have hof : Key.ofValue key = .error (.keyKind key.kind) := by
    rcases ofValue_cases key with ⟨_, -, h, -⟩ | ⟨h, -⟩
    · rw [hkey] at h
      cases h
    · exact h
  cases use with
  | clear | keys | values | length => cases huse
  | setItem key value =>
      cases huse
      simp only [run_setItem, attempt, Machine.onMap, Dictionary.setItem, hof, Machine.setMap_map]
      rfl
  | remove key =>
      cases huse
      simp only [run_remove, attempt, Machine.onMap, Dictionary.remove, hof, Machine.setMap_map]
      rfl
  | item key =>
      cases huse
      simp only [run_item, Dictionary.item, hof]
      rfl
  | has key =>
      cases huse
      simp only [run_has, Dictionary.has, hof]
      rfl
  | get key substitute =>
      cases huse
      simp only [run_get, Dictionary.itemOr, hof]
      rfl

/-- What a use does to the machine and to the view of it. -/
structure Follows (use : MapUse) (map : MapId) (m : Machine) (o : Outcome Value) : Prop where
  ending : o.ending = (use.onView (m.mapView map)).1.mapError Fault.interruption
  view : o.machine.mapView map = (use.onView (m.mapView map)).2
  same : m.SameButMap map o.machine

theorem onView_of_not_isKey {use : MapUse} (huse : use.key? = some key) (hkey : key.isKey = false)
    (view : MapView) :
    use.onView view = (.error (.keyKind key.kind), view) := by
  simp [onView, huse, Option.filter, hkey]

theorem onView_of_isKey {use : MapUse} (huse : ∀ key ∈ use.key?, key.isKey = true)
    (view : MapView) :
    use.onView view = use.onEntries view := by
  cases hkey : use.key? with
  | none => simp [onView, hkey]
  | some key => simp [onView, hkey, Option.filter, huse key hkey]

theorem onView_of_key {use : MapUse} (huse : use.key? = some key) (hkey : key.isKey = true)
    (view : MapView) :
    use.onView view = use.onEntries view := by
  simp [onView, huse, Option.filter, hkey]

/-- A use that only looks at the map. -/
theorem follows_of_ofExcept
    {use : MapUse}
    (result : Except Fault Value)
    (hview : use.onView (m.mapView map) = (result, m.mapView map)) :
    use.Follows map m (ofExcept result m) where
  ending := by rw [ending_ofExcept, hview]
  view := by rw [machine_ofExcept, hview]
  same := by
    rw [machine_ofExcept]
    exact .refl m map

/-- A use that changes the map. -/
theorem follows_of_setMap
    {use : MapUse} {value : Value}
    (hmap : map < m.maps.size)
    (entries : Dictionary)
    (hview : use.onView (m.mapView map) = (.ok value, ⟨entries.association, m.lists⟩)) :
    use.Follows map m (.done value (m.setMap map entries)) where
  ending := by
    rw [hview]
    rfl
  view := by
    rw [hview]
    exact Machine.mapView_setMap hmap entries
  same := .setMap m map entries

/-- A use that makes a list. -/
theorem follows_of_newList
    {use : MapUse}
    (elements : Sequence)
    (hview : use.onView (m.mapView map) = (m.mapView map).newList elements.toList) :
    use.Follows map m (.done (.list m.lists.size) (m.newList elements).2) where
  ending := by
    rw [hview]
    rfl
  view := by
    rw [hview]
    rfl
  same := .newList m map elements

/-- **One use.** A use of a map is the use of its association list. -/
theorem follows_run
    (hmap : map < m.maps.size)
    (hdistinct : (m.map map).association.Distinct)
    (use : MapUse) :
    use.Follows map m (use.run map m) := by
  by_cases hfit : ∀ key ∈ use.key?, key.isKey = true
  · have hview := onView_of_isKey hfit (m.mapView map)
    have hof (key : Value) (hkey : use.key? = some key) :
        ∃ k, Key.ofValue key = .ok k ∧ k.toValue = key ∧ k.described = key.asKey := by
      rcases ofValue_cases key with ⟨k, h, -, hk⟩ | ⟨-, h⟩
      · exact ⟨k, h, hk⟩
      · rw [hfit key hkey] at h
        cases h
    cases use with
    | clear => exact follows_of_setMap hmap [] hview
    | keys =>
        refine follows_of_newList (Dictionary.keys (m.map map)) (hview.trans ?_)
        rw [Dictionary.toList_keys]
        rfl
    | values =>
        refine follows_of_newList (Dictionary.values (m.map map)) (hview.trans ?_)
        rw [Dictionary.toList_values]
        rfl
    | length =>
        refine follows_of_ofExcept (.ok _) (hview.trans ?_)
        rw [onEntries, Machine.mapView, Dictionary.length_association]
    | setItem key value =>
        obtain ⟨k, hk, rfl, -⟩ := hof key rfl
        have hrun : (setItem k.toValue value).run map m =
            .done value (m.setMap map ((m.map map).put k value)) := by
          simp only [run_setItem, attempt, Machine.onMap, Dictionary.setItem, hk]
          rfl
        rw [hrun]
        refine follows_of_setMap hmap _ ?_
        rw [hview, Dictionary.association_put hdistinct]
        rfl
    | remove key =>
        obtain ⟨k, hk, rfl, -⟩ := hof key rfl
        have hrun : (remove k.toValue).run map m =
            .done (.boolean ((m.map map).find? k).isSome)
              (m.setMap map ((m.map map).without k)) := by
          simp only [run_remove, attempt, Machine.onMap, Dictionary.remove, hk]
          rfl
        rw [hrun]
        refine follows_of_setMap hmap _ ?_
        rw [hview, Dictionary.association_without hdistinct, ← Dictionary.association_find?,
          Association.isSome_get?]
        rfl
    | item key =>
        obtain ⟨k, hk, rfl, hdescribed⟩ := hof key rfl
        rw [run_item]
        refine follows_of_ofExcept _ ?_
        rw [hview]
        simp only [onEntries, Machine.mapView, Dictionary.association_find?, Dictionary.item, hk,
          ← hdescribed, bind, Except.bind]
        cases (m.map map).find? k <;> rfl
    | has key =>
        obtain ⟨k, hk, rfl, -⟩ := hof key rfl
        rw [run_has]
        refine follows_of_ofExcept _ ?_
        rw [hview]
        simp only [onEntries, Machine.mapView, ← Association.isSome_get?,
          Dictionary.association_find?, Dictionary.has, hk]
        rfl
    | get key substitute =>
        obtain ⟨k, hk, rfl, -⟩ := hof key rfl
        rw [run_get]
        refine follows_of_ofExcept _ ?_
        rw [hview]
        simp only [onEntries, Machine.mapView, Dictionary.association_find?, Dictionary.itemOr, hk]
        rfl
  · obtain ⟨key, hkey, hfit⟩ : ∃ key ∈ use.key?, key.isKey = false := by
      simpa using hfit
    rw [run_of_not_isKey hkey hfit]
    exact follows_of_ofExcept (.error _) (onView_of_not_isKey hkey hfit _)

section Runs

/-- A use whose key is not NaN keeps the keys different. -/
theorem proper_onView
    {use : MapUse}
    (view : MapView)
    (h : view.entries.Proper)
    (huse : ∀ key ∈ use.key?, key.isNaN = false) :
    (use.onView view).2.entries.Proper := by
  unfold onView
  split
  · exact h
  · cases use with
    | setItem key value => exact h.set (huse key rfl) value
    | remove key => exact h.remove key
    | clear => exact ⟨List.Pairwise.nil, nofun⟩
    | item key =>
        simp only [onEntries]
        split <;> exact h
    | has | get | keys | values | length => exact h

/-- **Uses in turn.** Uses of a map are uses of its association list. -/
theorem inTurn_run
    (hmap : map < m.maps.size)
    (hproper : (m.map map).association.Proper)
    (uses : List MapUse)
    (huses : ∀ use ∈ uses, ∀ key ∈ use.key?, key.isNaN = false) :
    let after := inTurn (Eval.step (run map)) uses m
    let expected := inTurn onView uses (m.mapView map)
    after.1 = expected.1.map (Except.mapError Fault.interruption) ∧
      after.2.mapView map = expected.2 ∧
      (after.2.map map).association.Proper ∧ m.SameButMap map after.2 := by
  refine inTurn_view (fun n => n.mapView map) (Except.mapError Fault.interruption) _
    (fun n => (n.map map).association.Proper ∧ m.SameButMap map n) (fun use n huse hn => ?_)
    uses m huses ⟨hproper, .refl m map⟩
  have hfollows := follows_run (hn.2.size_maps ▸ hmap) hn.1.distinct use
  refine ⟨hfollows.ending, hfollows.view, ?_, hn.2.trans hfollows.same⟩
  have hentries : ((Eval.step (run map) use n).2.map map).association =
      (use.onView (n.mapView map)).2.entries :=
    congrArg MapView.entries hfollows.view
  rw [hentries]
  exact proper_onView (n.mapView map) hn.1 huse

/-- Every entry is found under its key. -/
theorem ending_item_of_mem
    (hmap : map < m.maps.size)
    (hproper : (m.map map).association.Proper)
    {entry : Value × Value}
    (hentry : entry ∈ (m.map map).association) :
    ((item entry.1).run map m).ending = .ok entry.2 := by
  have hfollows := follows_run hmap hproper.distinct (item entry.1)
  have hfound := Association.get?_eq_some hproper.distinct hentry
    (Value.equals_self (hproper.notNaN entry hentry))
  rw [hfollows.ending, onView_of_key rfl (Dictionary.isKey_of_mem_association hentry)]
  simp only [onEntries, Machine.mapView, hfound]
  rfl

/-- To overwrite keeps all keys in their places. -/
theorem keys_setItem
    (hmap : map < m.maps.size)
    (hproper : (m.map map).association.Proper)
    {key : Value}
    (value : Value)
    (hcontains : (m.map map).association.contains key = true) :
    (((setItem key value).run map m).machine.map map).association.map (·.1) =
      (m.map map).association.map (·.1) := by
  cases hkey : key.isKey with
  | true =>
      have hview := (follows_run hmap hproper.distinct (setItem key value)).view
      rw [onView_of_key rfl hkey] at hview
      exact (congrArg (fun view => view.entries.map (·.1)) hview).trans
        (Association.keys_set_of_contains hcontains)
  | false =>
      rw [run_of_not_isKey rfl hkey]
      rfl

/-- What is removed and set again comes last. -/
theorem entries_remove_setItem
    (hmap : map < m.maps.size)
    (hproper : (m.map map).association.Proper)
    {key : Value}
    (value : Value)
    (hkey : key.isKey = true)
    (hnotNaN : key.isNaN = false) :
    ((inTurn (Eval.step (run map)) [remove key, setItem key value] m).2.map map).association =
      (m.map map).association.remove key ++ [(key, value)] := by
  obtain ⟨-, hview, -, -⟩ := inTurn_run hmap hproper [remove key, setItem key value]
    (by simpa [key?] using hnotNaN)
  have hfit (view : MapView) : (inTurn onView [remove key, setItem key value] view).2.entries =
      (view.entries.remove key).set key value := by
    simp only [inTurn]
    rw [onView_of_key rfl hkey, onView_of_key rfl hkey]
    rfl
  have hentries := (congrArg MapView.entries hview).trans (hfit _)
  exact hentries.trans (Association.set_remove hproper.distinct key value)

/-- An access fails for a missing key exactly when `has` denies the key. -/
theorem undefinedKey_iff
    (hmap : map < m.maps.size)
    (hproper : (m.map map).association.Proper)
    (key : Value) :
    ((item key).run map m).ending = .error (Fault.undefinedKey key.asKey).interruption ↔
      ((has key).run map m).ending = .ok (.boolean false) := by
  rw [(follows_run hmap hproper.distinct (item key)).ending,
    (follows_run hmap hproper.distinct (has key)).ending]
  cases hkey : key.isKey with
  | true =>
      rw [onView_of_key rfl hkey, onView_of_key rfl hkey]
      simp only [onEntries, Machine.mapView, ← Association.isSome_get?]
      cases (m.map map).association.get? key with
      | none => exact iff_of_true rfl rfl
      | some v =>
          change Except.ok v = _ ↔ Except.ok (Value.boolean true) = _
          simp
  | false =>
      rw [onView_of_not_isKey rfl hkey, onView_of_not_isKey rfl hkey]
      change Except.error (Fault.keyKind key.kind).interruption = _ ↔ Except.error _ = Except.ok _
      simp [Fault.interruption]

end Runs

end MapUse

/-- The text of a map that is not yet being written shows its entries in order. -/
theorem Machine.text_map (m : Machine) (map : MapId) :
    m.text (.map map) =
      "\x7b" ++ ", ".intercalate ((m.map map).association.map fun entry =>
        m.textWithin m.containers [.map map] entry.1 ++ ": " ++
          m.textWithin m.containers [.map map] entry.2) ++ "\x7d" := by
  simp only [text, textWithin, List.not_mem_nil, if_false, Dictionary.association, List.map_map]
  rfl

section Main

open MapUse

/-- **Maps are association lists.** Equality is an equivalence relation on the values that are fit
for keys, NaN excepted; both zeros are one key. For every map without equal keys, such as a new one:

* any finite sequence of uses has the results and faults of the same uses of the association list,
  and leaves its entries; the lists of keys and of values are new ones, and later uses change none
  of the lists;
* the text of the map shows the entries in their order, in which `keys` and `values` list them, and
  each value is found under its key;
* to overwrite keeps all keys in their places; what is removed and set again comes last;
* an access fails for a missing key exactly when `has` denies the key;
* with a key that is neither string nor number every use is a type mismatch and does nothing. -/
theorem maps_are_association_lists :
    (Equivalence fun a b : { v : Value // v.isKey = true ∧ v.isNaN = false } =>
      a.val.equals b.val = true) ∧
    (Value.number 0.0).equals (.number (-0.0)) = true ∧
    (∀ m : Machine, ((m.newMap []).2.map m.maps.size).association.Proper) ∧
    ∀ (m : Machine) (map : MapId), map < m.maps.size → (m.map map).association.Proper →
      let entries := (m.map map).association
      let inside := m.textWithin m.containers [.map map]
      (∀ uses : List MapUse, (∀ use ∈ uses, ∀ key ∈ use.key?, key.isNaN = false) →
        let after := inTurn (Eval.step (run map)) uses m
        let expected := inTurn onView uses (m.mapView map)
        after.1 = expected.1.map (Except.mapError Fault.interruption) ∧
          after.2.mapView map = expected.2 ∧
          (after.2.map map).association.Proper ∧ m.SameButMap map after.2) ∧
      m.text (.map map) = "\x7b" ++ ", ".intercalate (entries.map fun entry =>
        inside entry.1 ++ ": " ++ inside entry.2) ++ "\x7d" ∧
      (∀ entry ∈ entries, ((item entry.1).run map m).ending = .ok entry.2) ∧
      (∀ key value, entries.contains key = true →
        (((setItem key value).run map m).machine.map map).association.map (·.1) =
          entries.map (·.1)) ∧
      (∀ key value, key.isKey = true → key.isNaN = false →
        ((inTurn (Eval.step (run map)) [remove key, setItem key value] m).2.map map).association =
          entries.remove key ++ [(key, value)]) ∧
      (∀ key, key.isNaN = false →
        (((item key).run map m).ending = .error (Fault.undefinedKey key.asKey).interruption ↔
          ((has key).run map m).ending = .ok (.boolean false))) ∧
      (∀ (use : MapUse) (key : Value), use.key? = some key → key.isKey = false →
        use.run map m = .stopped (Fault.keyKind key.kind).interruption m ∧
          (Fault.keyKind key.kind).kind = .typeMismatch) := by
  refine ⟨?_, by decide, fun m => ?_, fun m map hmap hproper => ?_⟩
  · exact ⟨fun a => Value.equals_self a.2.2, Value.equals_symm, Value.equals_trans⟩
  · simp only [Machine.newMap, Machine.map, Array.getElem?_push_size]
    exact ⟨List.Pairwise.nil, nofun⟩
  exact ⟨fun uses huses => inTurn_run hmap hproper uses huses, m.text_map map,
    fun _ hentry => ending_item_of_mem hmap hproper hentry,
    fun _ value hcontains => keys_setItem hmap hproper value hcontains,
    fun _ value hkey hnotNaN => entries_remove_setItem hmap hproper value hkey hnotNaN,
    fun key _ => undefinedKey_iff hmap hproper key,
    fun _ _ huse hkey => ⟨run_of_not_isKey huse hkey m, rfl⟩⟩

theorem maps_are_association_lists_zero :
    let zero := Value.number 0.0
    let uses : List MapUse :=
      [.setItem zero (.boolean true), .setItem (.string "a") .nil, .setItem (.number (-0.0)) .nil,
        .keys, .remove (.number (-0.0)), .setItem zero .nil, .keys, .item (.list 0)]
    let m := ((Machine.initial fun _ => 0).newMap []).2
    let after := inTurn (Eval.step (run 0)) uses m
    0 < m.maps.size ∧ (m.map 0).association.Proper ∧
      (∀ use ∈ uses, ∀ key ∈ use.key?, key.isNaN = false) ∧
      (after.2.map 0).association = [(.string "a", .nil), (zero, .nil)] ∧
      after.2.lists = #[#[zero, .string "a"], #[.string "a", zero]] ∧
      after.1.getLast? = some (.error (Fault.keyKind .list).interruption) := by
  intro zero uses m after
  obtain ⟨-, -, hnew, hmaps⟩ := maps_are_association_lists
  have hproper : (m.map 0).association.Proper := hnew (Machine.initial fun _ => 0)
  have huses : ∀ use ∈ uses, ∀ key ∈ use.key?, key.isNaN = false := by decide
  obtain ⟨hruns, -⟩ := hmaps m 0 Nat.zero_lt_one hproper
  obtain ⟨hresults, hview, -, -⟩ := hruns uses huses
  have hentries : (inTurn onView uses (m.mapView 0)).2.entries =
      [(.string "a", .nil), (zero, .nil)] := by
    decide +kernel
  have hlists : (inTurn onView uses (m.mapView 0)).2.lists =
      #[#[zero, .string "a"], #[.string "a", zero]] := by
    decide +kernel
  rw [← hview, Machine.entries_mapView] at hentries
  rw [← hview, Machine.lists_mapView] at hlists
  refine ⟨Nat.zero_lt_one, hproper, huses, hentries, hlists, ?_⟩
  rw [hresults]
  rfl

end Main

end Lox
