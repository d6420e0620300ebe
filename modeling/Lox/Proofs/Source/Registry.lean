import Lox.Source.Map

/-!
# Sources are registered for good

A registration adds a source under the next number, or it answers the number of the latest registration
of its path and changes nothing (`SourceMap.add_cases`). So every number stands for the same path and
text ever after, and the numbers that paths have now are those of their latest registrations: this is
what a registration preserves of the whole list of those before it (`SourceMap.Records`).
-/

namespace Lox

namespace SourceMap

variable {sources : SourceMap}

section Numbers

/-- The sources have the numbers under which they are found. -/
def IsNumbered (sources : SourceMap) : Prop :=
  ∀ i file, sources.files[i]? = some file → file.id = i + 1

/-- Every source of the one map is found under the same number in the other. -/
def Extends (sources later : SourceMap) : Prop :=
  ∀ id file, sources.get? id = some file → later.get? id = some file

theorem get?_eq_none (sources : SourceMap) (id : Int) :
    sources.get? id = none ↔ id ≤ 0 ∨ sources.files.size < id := by
  unfold get?
  split
  · rw [Array.getElem?_eq_none_iff]
    omega
  · simp only [true_iff]
    omega

theorem get?_succ (sources : SourceMap) (i : Nat) :
    sources.get? (i + 1 : Nat) = sources.files[i]? := by
  unfold get?
  rw [if_pos (by omega)]
  congr 1
  omega

theorem isNumbered_empty (directory : String) (showsRelative : Bool) :
    (empty directory showsRelative).IsNumbered := by
  intro i file h
  simp [empty] at h

/-- A source is found under its own number. -/
theorem IsNumbered.id_eq
    {id : Int} {file : SourceFile}
    (h : sources.IsNumbered)
    (hfile : sources.get? id = some file) :
    Int.ofNat file.id = id := by
  unfold get? at hfile
  split at hfile
  · rw [h _ _ hfile]
    simp only [Int.ofNat_eq_natCast]
    omega
  · cases hfile

end Numbers

section Addition

/-- The sources with one more, which has the next number. -/
def extended (sources : SourceMap) (key content : String) : SourceMap :=
  { sources with
    files := sources.files.push ⟨sources.files.size + 1, key, content⟩
    numbers := (key, sources.files.size + 1) :: sources.numbers }

/-- A registration finds the latest one of its path, with the same text, or adds a source. -/
theorem add_cases (sources : SourceMap) (path content : String) :
    (∃ file, Path.isPseudo path = false ∧ sources.latest? (sources.key path) = some file ∧
        file.content = content ∧ sources.add path content = (sources, file.id)) ∨
      sources.add path content =
          (sources.extended (sources.key path) content, sources.files.size + 1) ∧
        (Path.isPseudo path = false → ∀ file, sources.latest? (sources.key path) = some file →
          file.content ≠ content) := by
  cases hpseudo : Path.isPseudo path with
  | true => exact .inr ⟨by simp [add, extended, hpseudo], nofun⟩
  | false =>
      cases hlatest : sources.latest? (sources.key path) with
      | none => exact .inr ⟨by simp [add, extended, hpseudo, hlatest], fun _ _ => nofun⟩
      | some file =>
          by_cases hcontent : file.content = content
          · exact .inl ⟨file, rfl, rfl, hcontent, by simp [add, hpseudo, hlatest, hcontent]⟩
          · refine .inr ⟨by simp [add, extended, hpseudo, hlatest, hcontent],
              fun _ other hother => ?_⟩
            cases hother
            exact hcontent

theorem extends_extended (sources : SourceMap) (key content : String) :
    sources.Extends (sources.extended key content) := by
  intro id file h
  unfold get? at h ⊢
  split at h
  · next hpos =>
      obtain ⟨hlt, -⟩ := Array.getElem?_eq_some_iff.mp h
      rw [if_pos hpos, extended, Array.getElem?_push_lt hlt, ← h, Array.getElem?_eq_getElem hlt]
  · cases h

theorem get?_extended (sources : SourceMap) (key content : String) :
    (sources.extended key content).get? (sources.files.size + 1 : Nat) =
      some ⟨sources.files.size + 1, key, content⟩ := by
  rw [get?_succ]
  exact Array.getElem?_push_size

theorem IsNumbered.extended (h : sources.IsNumbered) (key content : String) :
    (sources.extended key content).IsNumbered := by
  intro i file hfile
  rw [SourceMap.extended, Array.getElem?_push] at hfile
  split at hfile
  · next hlast =>
      cases hfile
      rw [hlast]
  · exact h i file hfile

/-- A path is looked up under the number of its latest registration. -/
theorem get?_of_latest? (hsources : sources.IsNumbered) {key : String} {file : SourceFile}
    (h : sources.latest? key = some file) :
    sources.numbers.lookup key = some file.id ∧ sources.get? file.id = some file := by
  obtain ⟨id, hid, hfile⟩ := Option.bind_eq_some_iff.mp h
  have heq : (file.id : Int) = id := hsources.id_eq hfile
  obtain rfl : file.id = id := by omega
  exact ⟨hid, hfile⟩

/-- A source that is registered is found under its number, and the others under theirs. -/
theorem add_spec (hsources : sources.IsNumbered) (path content : String) :
    (sources.add path content).1.IsNumbered ∧
      sources.Extends (sources.add path content).1 ∧
      ∃ file, (sources.add path content).1.get? (sources.add path content).2 = some file ∧
        file.content = content := by
  rcases sources.add_cases path content with ⟨file, -, hlatest, hcontent, hadd⟩ | ⟨hadd, -⟩
  · rw [hadd]
    exact ⟨hsources, fun _ _ h => h, file, (get?_of_latest? hsources hlatest).2, hcontent⟩
  · rw [hadd]
    exact ⟨hsources.extended _ _, sources.extends_extended _ _, _, sources.get?_extended _ _, rfl⟩

/-- The number of a path is the one that its registration was answered with. -/
theorem lookup_add (hsources : sources.IsNumbered) (path content key : String) :
    (sources.add path content).1.numbers.lookup key =
      if sources.key path = key then some (sources.add path content).2
      else sources.numbers.lookup key := by
  rcases sources.add_cases path content with ⟨file, -, hlatest, -, hadd⟩ | ⟨hadd, -⟩
  · rw [hadd]
    split
    · next hkey => exact hkey ▸ (get?_of_latest? hsources hlatest).1
    · rfl
  · rw [hadd, extended, List.lookup_cons]
    by_cases hkey : sources.key path = key
    · simp [hkey]
    · rw [beq_false_of_ne (Ne.symm hkey), if_neg hkey]

end Addition

section Histories

/-- A registration that was made: the path and the text, and the number that was answered. -/
structure Registration where
  key : String
  content : String
  id : Nat

/-- The source that a registration is about. -/
def Registration.file (r : Registration) : SourceFile :=
  ⟨r.id, r.key, r.content⟩

/-- Register texts one after the other. -/
def addAll (sources : SourceMap) : List (String × String) → List Registration × SourceMap
  | [] => ([], sources)
  | (path, content) :: calls =>
      let (next, id) := sources.add path content
      let (registrations, last) := next.addAll calls
      (⟨sources.key path, content, id⟩ :: registrations, last)

/-- The most recent registration of a path. -/
def mostRecent (past : List Registration) (key : String) : Option Registration :=
  past.reverse.find? (·.key == key)

theorem mostRecent_concat (past : List Registration) (r : Registration) (key : String) :
    mostRecent (past ++ [r]) key = if r.key = key then some r else mostRecent past key := by
  by_cases h : r.key = key <;> simp [mostRecent, h]

theorem mem_of_mostRecent {past : List Registration} {key : String} {r : Registration}
    (h : mostRecent past key = some r) : r ∈ past ∧ r.key = key :=
  ⟨List.mem_reverse.mp (List.mem_of_find?_eq_some h), by simpa using List.find?_some h⟩

/-- The sources are what the registrations made of an empty map: each of these is found under its
number, and the number of a path is that of its most recent registration. -/
structure Records (sources : SourceMap) (past : List Registration) : Prop where
  numbered : sources.IsNumbered
  found : ∀ r ∈ past, sources.get? r.id = some r.file
  latest : ∀ key, sources.numbers.lookup key = (mostRecent past key).map (·.id)

variable {past : List Registration}

namespace Records

/-- The source that a path is looked up as is that of its most recent registration. -/
theorem latest?_eq (h : sources.Records past) (key : String) :
    sources.latest? key = (mostRecent past key).map Registration.file := by
  rw [latest?, h.latest]
  cases hrecent : mostRecent past key with
  | none => rfl
  | some r => exact h.found r (mem_of_mostRecent hrecent).1

/-- What is registered is found under the number that is answered. -/
theorem get?_add (h : sources.Records past) (path content : String) :
    (sources.add path content).1.get? (sources.add path content).2 =
      some ⟨(sources.add path content).2, sources.key path, content⟩ := by
  rcases sources.add_cases path content with ⟨file, -, hlatest, hcontent, hadd⟩ | ⟨hadd, -⟩
  · -- the source was registered before, so it has the path
    have hrecent := (h.latest?_eq (sources.key path)).symm.trans hlatest
    obtain ⟨r, hr, rfl⟩ := Option.map_eq_some_iff.mp hrecent
    obtain ⟨hmem, hkey⟩ := mem_of_mostRecent hr
    rw [hadd, ← hkey, ← hcontent]
    exact h.found r hmem
  · rw [hadd]
    exact sources.get?_extended _ _

/-- What one registration preserves. -/
theorem add (h : sources.Records past) (path content : String) :
    (sources.add path content).1.Records
      (past ++ [⟨sources.key path, content, (sources.add path content).2⟩]) := by
  obtain ⟨hnumbered, hextends, -⟩ := add_spec h.numbered path content
  constructor
  · exact hnumbered
  · intro q hq
    rcases List.mem_append.mp hq with hq | hq
    · exact hextends _ _ (h.found q hq)
    · exact List.mem_singleton.mp hq ▸ h.get?_add path content
  · intro key
    rw [lookup_add h.numbered, mostRecent_concat, h.latest]
    split
    · rfl
    · rfl

/-- What a sequence of registrations preserves, and that it takes nothing away. -/
theorem addAll (h : sources.Records past) (calls : List (String × String)) :
    (sources.addAll calls).2.Records (past ++ (sources.addAll calls).1) ∧
      sources.Extends (sources.addAll calls).2 := by
  induction calls generalizing sources past with
  | nil => simpa [SourceMap.addAll, Extends] using h
  | cons call calls ih =>
      obtain ⟨path, content⟩ := call
      obtain ⟨-, hextends, -⟩ := add_spec h.numbered path content
      obtain ⟨hrecords, hlater⟩ := ih (h.add path content)
      constructor
      · simpa [SourceMap.addAll] using hrecords
      · exact fun id file hfile => hlater id file (hextends id file hfile)

end Records

/-- Sources that are found again are looked up as before. -/
theorem Extends.lookups {later : SourceMap} {span : Span} {file : SourceFile}
    (h : sources.Extends later)
    (hfile : sources.get? span.file = some file) :
    later.position? span = sources.position? span ∧ later.resolve span = sources.resolve span := by
  have hlater := h _ _ hfile
  constructor
  · simp only [position?, hfile, hlater]
  · simp only [resolve, hfile, hlater]

end Histories

end SourceMap

end Lox
