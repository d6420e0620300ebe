import Lox.Display
import Mathlib.Data.Finset.Card
import Mathlib.Data.Finset.SDiff

/-!
# Writing with guards

A list or map is kept in a set of guards while its elements are being written, so that it is
abbreviated where it is met again. `Machine.Writes` states the rules of this, with the guards before
and after. On every machine the rules have exactly one outcome (`Machine.writes_iff`): each list or
map that is entered is one less to enter. The guards are as before in the end, and the text of a
value is what is written when there are none.
-/

namespace Lox

/-- Is the value written with what it contains? -/
def Value.isContainer : Value → Bool
  | list _ | map _ => true
  | nil | boolean _ | number _ | string _ | function _ | native _ | «class» _ | «instance» _ =>
      false

/-- What is written for a list or map that is being written. -/
def Value.ellipsis : Value → String
  | map _ => "\x7b...\x7d"
  | _ => "[...]"

/-- Texts in turn as the keys and values of entries. -/
def pairedTexts : List String → List String
  | key :: value :: rest => (key ++ ": " ++ value) :: pairedTexts rest
  | [_] | [] => []

/-- The text of a list or map, made of the texts of what it contains. -/
def Value.joined (v : Value) (parts : List String) : String :=
  match v with
  | map _ => "\x7b" ++ ", ".intercalate (pairedTexts parts) ++ "\x7d"
  | _ => "[" ++ ", ".intercalate parts ++ "]"

/-- The lists and maps that are being written. -/
structure Guards where
  lists : Finset ListId
  maps : Finset MapId

namespace Guards

/-- Nothing is being written. -/
def none : Guards := ⟨∅, ∅⟩

/-- Is the value being written? -/
def Has (g : Guards) : Value → Prop
  | .list id => id ∈ g.lists
  | .map id => id ∈ g.maps
  | _ => False

/-- Begin to write a list or map. -/
def add (g : Guards) : Value → Guards
  | .list id => { g with lists := insert id g.lists }
  | .map id => { g with maps := insert id g.maps }
  | _ => g

/-- Finish writing a list or map. -/
def drop (g : Guards) : Value → Guards
  | .list id => { g with lists := g.lists.erase id }
  | .map id => { g with maps := g.maps.erase id }
  | _ => g

end Guards

namespace Machine

/-- What a list or map contains: its elements, or its keys and values in turn. -/
def contents (m : Machine) : Value → List Value
  | .list id => (m.list id).toList
  | .map id => (m.map id).flatMap fun entry => [entry.1.toValue, entry.2]
  | _ => []

/-- The text of a value that is neither list nor map. -/
def atomText (m : Machine) : Value → String
  | .nil => "nil"
  | .boolean b => if b then "true" else "false"
  | .number x => Number.text x
  | .string s => s
  | .function id => s!"<fn {m.functionName id}>"
  | .native id =>
      let name := (m.natives[id]?.map (·.name)).getD ""
      s!"<native fn {name}>"
  | .class id => s!"<class {m.className id}>"
  | .instance id => s!"<{m.instanceClassName id} instance>"
  | .list _ | .map _ => ""

/-- With some guards before and after, the texts of the values are written in order. -/
inductive Writes (m : Machine) : Guards → List Value → List String → Guards → Prop
  | nil {g : Guards} : Writes m g [] [] g
  | atom
      {g g' : Guards} {v : Value} {rest : List Value} {texts : List String} :
      v.isContainer = false →
      Writes m g rest texts g' →
      Writes m g (v :: rest) (m.atomText v :: texts) g'
  /-- What is being written is abbreviated. -/
  | abbreviated
      {g g' : Guards} {v : Value} {rest : List Value} {texts : List String} :
      g.Has v →
      Writes m g rest texts g' →
      Writes m g (v :: rest) (v.ellipsis :: texts) g'
  /-- Every other list or map is written in full, guarded meanwhile. -/
  | full
      {g g₁ g' : Guards} {v : Value} {rest : List Value} {parts texts : List String} :
      v.isContainer = true →
      ¬g.Has v →
      Writes m (g.add v) (m.contents v) parts g₁ →
      Writes m (g₁.drop v) rest texts g' →
      Writes m g (v :: rest) (v.joined parts :: texts) g'

end Machine

namespace Guards

variable {g : Guards} {v : Value}

theorem drop_add (h : ¬g.Has v) : (g.add v).drop v = g := by
  cases v with
  | list id => simp only [add, drop, Finset.erase_insert h]
  | map id => simp only [add, drop, Finset.erase_insert h]
  | nil | boolean | number | string | function | native | «class» | «instance» => rfl

theorem isContainer_of_has (h : g.Has v) : v.isContainer = true := by
  cases v with
  | list | map => rfl
  | nil | boolean | number | string | function | native | «class» | «instance» => cases h

end Guards

namespace Machine

variable {m : Machine}

/-- The guards are restored. -/
theorem Writes.guards_eq
    {g g' : Guards} {vs : List Value} {texts : List String}
    (h : m.Writes g vs texts g') :
    g' = g := by
  induction h with
  | nil => rfl
  | atom _ _ ih => exact ih
  | abbreviated _ _ ih => exact ih
  | full _ hfresh _ _ ihparts ihrest => rw [ihrest, ihparts, Guards.drop_add hfresh]

/-- There is only one way to write. -/
theorem Writes.unique
    {g g' g'' : Guards} {vs : List Value} {texts texts' : List String}
    (h : m.Writes g vs texts g')
    (h' : m.Writes g vs texts' g'') :
    texts = texts' := by
  induction h generalizing texts' g'' with
  | nil =>
      cases h'
      rfl
  | atom hatom _ ih =>
      cases h' with
      | atom _ hrest => rw [ih hrest]
      | abbreviated hhas _ =>
          rw [Guards.isContainer_of_has hhas] at hatom
          cases hatom
      | full hcontainer _ _ _ =>
          rw [hcontainer] at hatom
          cases hatom
  | abbreviated hhas _ ih =>
      cases h' with
      | atom hatom _ =>
          rw [Guards.isContainer_of_has hhas] at hatom
          cases hatom
      | abbreviated _ hrest => rw [ih hrest]
      | full _ hfresh _ _ => exact absurd hhas hfresh
  | full hcontainer hfresh hparts _ ihparts ihrest =>
      cases h' with
      | atom hatom _ =>
          rw [hcontainer] at hatom
          cases hatom
      | abbreviated hhas _ => exact absurd hhas hfresh
      | full _ _ hparts' hrest =>
          rw [hparts'.guards_eq, ← hparts.guards_eq] at hrest
          rw [ihparts hparts', ihrest hrest]

/-- The first value and the others are written independently: the guards are restored between. -/
theorem Writes.cons
    {g : Guards} {v : Value} {rest : List Value} {text : String} {texts : List String}
    (hfirst : m.Writes g [v] [text] g)
    (hrest : m.Writes g rest texts g) :
    m.Writes g (v :: rest) (text :: texts) g := by
  cases hfirst with
  | atom hv _ => exact .atom hv hrest
  | abbreviated hv _ => exact .abbreviated hv hrest
  | full hv hfresh hparts hnil =>
      cases hnil
      exact .full hv hfresh hparts hrest

theorem Writes.container
    {g : Guards} {v : Value} {parts : List String}
    (hv : v.isContainer = true)
    (hfresh : ¬g.Has v)
    (hparts : m.Writes (g.add v) (m.contents v) parts (g.add v)) :
    m.Writes g [v] [v.joined parts] g := by
  apply Writes.full hv hfresh hparts
  rw [Guards.drop_add hfresh]
  exact .nil

section Text

variable {depth : Nat} {open_ : List Value} {v : Value}

theorem textWithin_atom (h : v.isContainer = false) :
    m.textWithin (depth + 1) open_ v = m.atomText v := by
  cases v with
  | list | map => cases h
  | nil | boolean | number | string | function | native | «class» | «instance» => rfl

theorem textWithin_open (h : v.isContainer = true) (hopen : v ∈ open_) :
    m.textWithin (depth + 1) open_ v = v.ellipsis := by
  cases v with
  | list | map => simp only [textWithin, if_pos hopen, Value.ellipsis]
  | nil | boolean | number | string | function | native | «class» | «instance» => cases h

theorem pairedTexts_entries (text : Value → String) (entries : Dictionary) :
    pairedTexts ((entries.flatMap fun entry => [entry.1.toValue, entry.2]).map text) =
      entries.map fun entry => text entry.1.toValue ++ ": " ++ text entry.2 := by
  induction entries with
  | nil => rfl
  | cons entry entries ih =>
      simp only [List.flatMap_cons, List.cons_append, List.nil_append, List.map_cons, pairedTexts,
        ih]

theorem textWithin_fresh (h : v.isContainer = true) (hfresh : v ∉ open_) :
    m.textWithin (depth + 1) open_ v =
      v.joined ((m.contents v).map (m.textWithin depth (v :: open_))) := by
  cases v with
  | list => simp only [textWithin, if_neg hfresh, Value.joined, contents]
  | map => simp only [textWithin, if_neg hfresh, Value.joined, contents, pairedTexts_entries]
  | nil | boolean | number | string | function | native | «class» | «instance» => cases h

end Text

end Machine

namespace Guards

variable {g : Guards} {v w : Value} {open_ : List Value}

/-- The guards are on the lists and maps of the list, and on no other. -/
def Matches (g : Guards) (open_ : List Value) : Prop :=
  ∀ v, v.isContainer = true → (g.Has v ↔ v ∈ open_)

theorem has_add (h : v.isContainer = true) : (g.add v).Has w ↔ w = v ∨ g.Has w := by
  cases v with
  | list | map => cases w <;> simp [add, Has]
  | nil | boolean | number | string | function | native | «class» | «instance» => cases h

theorem Matches.add (h : g.Matches open_) (hv : v.isContainer = true) :
    (g.add v).Matches (v :: open_) := by
  intro w hw
  rw [has_add hv, List.mem_cons, h w hw]

theorem matches_none : none.Matches [] := by
  intro v _
  cases v <;> simp [none, Has]

end Guards

namespace Machine

variable {m : Machine}

/-- The number of lists and maps without a guard. -/
def unguarded (m : Machine) (g : Guards) : Nat :=
  (Finset.range m.lists.size \ g.lists).card + (Finset.range m.maps.size \ g.maps).card

/-- With every guard on a list or map that contains anything, there is one less to write. -/
theorem unguarded_add_lt
    {g : Guards} {v : Value}
    (hfresh : ¬g.Has v)
    (hfull : m.contents v ≠ []) :
    m.unguarded (g.add v) < m.unguarded g := by
  cases v with
  | list id =>
      have hid : id < m.lists.size := by
        by_contra hid
        simp [contents, Machine.list, Array.getElem?_eq_none (Nat.le_of_not_lt hid)] at hfull
      have hmem : id ∈ Finset.range m.lists.size \ g.lists :=
        Finset.mem_sdiff.mpr ⟨Finset.mem_range.mpr hid, hfresh⟩
      have hless := Finset.card_erase_lt_of_mem hmem
      simp only [unguarded, Guards.add, Finset.sdiff_insert]
      omega
  | map id =>
      have hid : id < m.maps.size := by
        by_contra hid
        simp [contents, Machine.map, Array.getElem?_eq_none (Nat.le_of_not_lt hid)] at hfull
      have hmem : id ∈ Finset.range m.maps.size \ g.maps :=
        Finset.mem_sdiff.mpr ⟨Finset.mem_range.mpr hid, hfresh⟩
      have hless := Finset.card_erase_lt_of_mem hmem
      simp only [unguarded, Guards.add, Finset.sdiff_insert]
      omega
  | nil | boolean | number | string | function | native | «class» | «instance» =>
      exact absurd rfl hfull

/-- A depth above the number of lists and maps without a guard is enough to write. -/
theorem writes_textWithin
    {g : Guards} {open_ : List Value} {depth : Nat}
    (hdepth : m.unguarded g < depth)
    (hmatches : g.Matches open_)
    (vs : List Value) :
    m.Writes g vs (vs.map (m.textWithin depth open_)) g := by
  induction depth generalizing g open_ vs with
  | zero => omega
  | succ depth ih =>
      induction vs with
      | nil => exact .nil
      | cons v rest ihrest =>
          apply Writes.cons _ ihrest
          cases hv : v.isContainer with
          | false =>
              rw [textWithin_atom hv]
              exact .atom hv .nil
          | true =>
              by_cases hopen : v ∈ open_
              · rw [textWithin_open hv hopen]
                exact .abbreviated ((hmatches v hv).mpr hopen) .nil
              · have hfresh : ¬g.Has v := fun h => hopen ((hmatches v hv).mp h)
                rw [textWithin_fresh hv hopen]
                apply Writes.container hv hfresh
                by_cases hfull : m.contents v = []
                · rw [hfull]
                  exact .nil
                · have hless := unguarded_add_lt hfresh hfull
                  exact ih (by omega) (hmatches.add hv) (m.contents v)

/-- Where nothing is being written, what is written are the texts of the values. -/
theorem writes_text (m : Machine) (vs : List Value) :
    m.Writes .none vs (vs.map m.text) .none := by
  apply writes_textWithin _ Guards.matches_none
  simp [unguarded, containers, Guards.none]

end Machine

end Lox
