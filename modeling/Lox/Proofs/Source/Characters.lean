import Lox.Source.Map

/-!
# The characters of what is shown of a source

A report shows numbers, lines of a source and its path. Numbers are made of digits, a line of characters
of the text, and a path, also one that is shown relative to a directory, of its own characters, dots and
slashes.
-/

namespace Lox

variable {c : Char}

theorem not_mem_toString (hc : c.isDigit = false) (n : Nat) : c ∉ (toString n).toList := by
  intro h
  rw [Nat.toString_eq_repr, Nat.toList_repr] at h
  have hdigit := Nat.isDigit_of_mem_toDigits (by decide) (by decide) h
  rw [hc] at hdigit
  cases hdigit

theorem mem_of_mem_splitOn {separator : Char} {piece text : List Char}
    (hpiece : piece ∈ text.splitOn separator)
    (h : c ∈ piece) :
    c ∈ text := by
  induction text generalizing piece with
  | nil =>
      rw [List.splitOn_nil, List.mem_singleton] at hpiece
      exact hpiece ▸ h
  | cons d text ih =>
      rw [List.splitOn_cons_eq_if_modifyHead] at hpiece
      split at hpiece
      · rcases List.mem_cons.mp hpiece with rfl | hpiece
        · cases h
        · exact List.mem_cons_of_mem _ (ih hpiece h)
      · cases hsplit : text.splitOn separator with
        | nil => simp [hsplit] at hpiece
        | cons first rest =>
            rw [hsplit, List.modifyHead_cons] at hpiece
            rcases List.mem_cons.mp hpiece with rfl | hpiece
            · rcases List.mem_cons.mp h with rfl | h
              · exact List.mem_cons_self
              · exact List.mem_cons_of_mem _ (ih (hsplit ▸ List.mem_cons_self) h)
            · exact List.mem_cons_of_mem _ (ih (hsplit ▸ List.mem_cons_of_mem _ hpiece) h)

/-- The lines of a text are the pieces between its line feeds. -/
theorem splitLines_eq_splitOn (text : List Char) : splitLines text = text.splitOn '\n' := by
  induction text with
  | nil => rw [splitLines, List.splitOn_nil]
  | cons c text ih =>
      rw [splitLines, List.splitOn_cons_eq_if_modifyHead, ih]
      cases hsplit : text.splitOn '\n' with
      | nil => exact absurd hsplit (List.splitOn_ne_nil '\n' text)
      | cons first rest => simp

theorem mem_of_mem_splitLines {line text : List Char} (hline : line ∈ splitLines text) (h : c ∈ line) :
    c ∈ text := by
  rw [splitLines_eq_splitOn] at hline
  exact mem_of_mem_splitOn hline h

theorem mem_of_mem_shownLine {line : List Char} (h : c ∈ SourceFile.shownLine line) : c ∈ line := by
  unfold SourceFile.shownLine at h
  rw [List.mem_reverse] at h
  exact List.mem_reverse.mp ((List.dropWhile_suffix _).subset h)

/-- Every component of a path is made of its characters. -/
theorem Path.mem_of_mem_resolve {path component : String}
    (hcomponent : component ∈ Path.resolve path)
    (h : c ∈ component.toList) :
    c ∈ path.toList := by
  have hfold : ∀ (later done : List String), component ∈ later.foldl Path.step done →
      component ∈ done ∨ component ∈ later := by
    intro later
    induction later with
    | nil => exact fun done hdone => .inl hdone
    | cons first later ih =>
        intro done hlater
        rcases ih _ hlater with hdone | hlater
        · unfold Path.step at hdone
          split at hdone
          · exact .inl hdone
          · split at hdone
            · exact .inl (List.mem_of_mem_drop hdone)
            · rcases List.mem_cons.mp hdone with rfl | hdone
              · exact .inr List.mem_cons_self
              · exact .inl hdone
        · exact .inr (List.mem_cons_of_mem _ hlater)
  rcases hfold _ _ (List.mem_reverse.mp hcomponent) with hnone | hmem
  · cases hnone
  · obtain ⟨piece, hpiece, rfl⟩ := List.mem_map.mp (List.mem_filter.mp hmem).1
    rw [String.toList_ofList] at h
    exact mem_of_mem_splitOn hpiece h

theorem Path.mem_of_mem_dropShared {component : String} (base target : List String)
    (h : component ∈ (dropShared base target).2) :
    component ∈ target := by
  fun_induction dropShared base target with
  | case1 bases first targets ih => exact List.mem_cons_of_mem _ (ih h)
  | case2 => exact h
  | case3 => exact h

theorem mem_intercalate {separator : List Char} {pieces : List (List Char)}
    (h : c ∈ separator.intercalate pieces) :
    c ∈ separator ∨ ∃ piece ∈ pieces, c ∈ piece := by
  induction pieces with
  | nil => cases h
  | cons first pieces ih =>
      cases pieces with
      | nil => exact .inr ⟨first, List.mem_cons_self, by simpa using h⟩
      | cons second pieces =>
          rw [List.intercalate_cons_cons, List.mem_append, List.mem_append] at h
          rcases h with (h | h) | h
          · exact .inr ⟨first, List.mem_cons_self, h⟩
          · exact .inl h
          · rcases ih h with h | ⟨piece, hpiece, h⟩
            · exact .inl h
            · exact .inr ⟨piece, List.mem_cons_of_mem _ hpiece, h⟩

/-- A path is shown in its own characters, dots and slashes. -/
theorem SourceMap.not_mem_shownPath
    {sources : SourceMap} {file : SourceFile}
    (h : c ∉ file.path.toList)
    (hdot : c ≠ '.')
    (hslash : c ≠ '/') :
    c ∉ (sources.shownPath file).toList := by
  unfold SourceMap.shownPath
  split
  · unfold Path.relative
    generalize hsteps : Path.dropShared (Path.resolve sources.directory) (Path.resolve file.path) =
      shared
    obtain ⟨up, down⟩ := shared
    dsimp only
    split
    · simpa using hdot
    · rw [String.toList_intercalate]
      intro hmem
      rcases mem_intercalate hmem with hseparator | ⟨piece, hpiece, hc⟩
      · exact hslash (by simpa using hseparator)
      · obtain ⟨component, hcomponent, rfl⟩ := List.mem_map.mp hpiece
        rcases List.mem_append.mp hcomponent with hup | hdown
        · obtain ⟨_, -, rfl⟩ := List.mem_map.mp hup
          exact hdot (by simpa using hc)
        · have hresolved : component ∈ Path.resolve file.path := by
            refine Path.mem_of_mem_dropShared (Path.resolve sources.directory) _ ?_
            rw [hsteps]
            exact hdown
          exact h (Path.mem_of_mem_resolve hresolved hc)
  · exact h

end Lox
