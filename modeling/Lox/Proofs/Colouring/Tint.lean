import Lox.Diagnostic.Report

/-!
# Tinted texts

A tinted text is a plain one in which some pieces stand between the escape sequence of a role and the
sequence that ends every colour (`Tinted`). Pieces that are joined stay tinted. Without the colours
the text is the plain one (`Tinted.dropColours_eq`), and wherever a colour begins, it ends behind the
piece it was meant for (`Tinted.endsColour`).
-/

namespace Lox

section Removal

/-- The length of the colour sequence at the beginning of a text, if there is one: the escape character,
a bracket, digits and semicolons, and the letter `m`. -/
def colourLength? : List Char → Option Nat
  | '\x1b' :: '[' :: rest =>
      let parameters := rest.takeWhile fun c => c.isDigit || c == ';'
      if (rest.drop parameters.length).head? = some 'm' then some (parameters.length + 3) else none
  | _ => none

/-- A text without its colour sequences; the first `pending` characters belong to one of them. -/
def dropColours : List Char → Nat → List Char
  | [], _ => []
  | _ :: rest, pending + 1 => dropColours rest pending
  | c :: rest, 0 =>
      match colourLength? (c :: rest) with
      | some length => dropColours rest (length - 1)
      | none => c :: dropColours rest 0

/-- A text without its colour sequences. -/
def withoutColours (text : String) : String :=
  String.ofList (dropColours text.toList 0)

theorem colourLength?_of_ne {c : Char} (h : c ≠ '\x1b') (rest : List Char) :
    colourLength? (c :: rest) = none := by
  unfold colourLength?
  split
  · next heq => exact absurd (List.cons.inj heq).1 h
  · rfl

theorem dropColours_cons {c : Char} (h : c ≠ '\x1b') (rest : List Char) :
    dropColours (c :: rest) 0 = c :: dropColours rest 0 := by
  rw [dropColours, colourLength?_of_ne h]

theorem dropColours_append {text : List Char} (h : '\x1b' ∉ text) (rest : List Char) :
    dropColours (text ++ rest) 0 = text ++ dropColours rest 0 := by
  induction text with
  | nil => rfl
  | cons c text ih =>
      obtain ⟨hc, htext⟩ := List.ne_and_not_mem_of_not_mem_cons h
      rw [List.cons_append, dropColours_cons hc.symm, ih htext, List.cons_append]

theorem dropColours_escape (role : Role) (rest : List Char) :
    dropColours (role.escape.toList ++ rest) 0 = dropColours rest 0 := by
  cases role <;> rfl

theorem dropColours_reset (rest : List Char) :
    dropColours (resetEscape.toList ++ rest) 0 = dropColours rest 0 :=
  rfl

end Removal

section Tints

/-- The second text is the first one without colours: some texts are between the escape sequence of a
role and the one that ends every colour, and the escape character occurs nowhere else. Of those texts,
only some may have a line feed. -/
inductive Tinted (spanning : String → Prop) : List Char → List Char → Prop
  | nil : Tinted spanning [] []
  | char {c : Char} {coloured plain : List Char} :
      c ≠ '\x1b' → Tinted spanning coloured plain → Tinted spanning (c :: coloured) (c :: plain)
  | painted {text : String} {coloured plain : List Char} (role : Role) :
      '\x1b' ∉ text.toList → ('\n' ∈ text.toList → spanning text) →
      Tinted spanning coloured plain →
      Tinted spanning (role.escape.toList ++ (text.toList ++ (resetEscape.toList ++ coloured)))
        (text.toList ++ plain)

/-- What follows the escape sequence of a role: a text without the escape character, with a line feed
only where that is allowed, and the sequence that ends every colour. -/
def EndsColour (spanning : String → Prop) (after : List Char) : Prop :=
  ∃ (text : String) (rest : List Char),
    after = text.toList ++ (resetEscape.toList ++ rest) ∧ '\x1b' ∉ text.toList ∧
      ('\n' ∈ text.toList → spanning text)

/-- The two texts differ by colours alone: without them the first one is the second one, and each colour
is ended behind its text. -/
structure DiffersByColours (spanning : String → Prop) (coloured plain : String) : Prop where
  removed : withoutColours coloured = plain
  closed : ∀ before role after, coloured.toList = before ++ (Role.escape role).toList ++ after →
    EndsColour spanning after

/-- A piece without the character cannot be the place where it occurs. -/
theorem between_of_not_mem
    {c : Char} {text later before after : List Char}
    (h : text ++ later = before ++ c :: after)
    (hfree : c ∉ text) :
    ∃ between, before = text ++ between ∧ later = between ++ c :: after := by
  obtain ⟨between, rfl, hlater⟩ | ⟨between, rfl, hafter⟩ := List.append_eq_append_iff.mp h
  · exact ⟨between, rfl, hlater⟩
  · cases between with
    | nil => exact ⟨[], by simp, by simpa using hafter.symm⟩
    | cons d between =>
        obtain ⟨rfl, -⟩ := List.cons.inj hafter
        simp at hfree

/-- The sequence of a role has the escape character at its beginning only, and `m` only at its end. -/
theorem Role.escape_eq (role : Role) :
    ∃ parameters, role.escape.toList = '\x1b' :: (parameters ++ ['m']) ∧
      '\x1b' ∉ parameters ++ ['m'] ∧ 'm' ∉ parameters := by
  refine ⟨role.escape.toList.tail.dropLast, ?_, ?_, ?_⟩ <;> cases role <;> decide

/-- No escape sequence of a role is the beginning of another one. -/
theorem Role.escape_append_inj
    {role role' : Role} {rest rest' : List Char}
    (h : role.escape.toList ++ rest = role'.escape.toList ++ rest') :
    rest = rest' := by
  obtain ⟨parameters, hescape, -, hm⟩ := role.escape_eq
  obtain ⟨parameters', hescape', -, hm'⟩ := role'.escape_eq
  simp only [hescape, hescape', List.cons_append, List.append_assoc, List.nil_append,
    List.cons.injEq, true_and] at h
  obtain ⟨between, rfl, hrest⟩ := between_of_not_mem h hm
  cases between with
  | nil => exact (List.cons.inj hrest).2
  | cons c between =>
      obtain ⟨rfl, -⟩ := List.cons.inj hrest
      simp at hm'

theorem Role.escape_append_ne_reset {role : Role} {rest rest' : List Char} :
    role.escape.toList ++ rest ≠ resetEscape.toList ++ rest' := by
  cases role <;> simp [Role.escape, resetEscape]

namespace Tinted

variable {spanning : String → Prop} {coloured plain coloured' plain' : List Char}

theorem append (h : Tinted spanning coloured plain) (h' : Tinted spanning coloured' plain') :
    Tinted spanning (coloured ++ coloured') (plain ++ plain') := by
  induction h with
  | nil => exact h'
  | char hc _ ih => exact .char hc ih
  | painted role hfree hspanning _ ih =>
      simp only [List.append_assoc]
      exact .painted role hfree hspanning ih

theorem mono {wider : String → Prop} (h : Tinted spanning coloured plain)
    (hwider : ∀ text, spanning text → wider text) :
    Tinted wider coloured plain := by
  induction h with
  | nil => exact .nil
  | char hc _ ih => exact .char hc ih
  | painted role hfree hspanning _ ih =>
      exact .painted role hfree (fun hfeed => hwider _ (hspanning hfeed)) ih

/-- Without the colours, the coloured text is the plain one. -/
theorem dropColours_eq (h : Tinted spanning coloured plain) : dropColours coloured 0 = plain := by
  induction h with
  | nil => rfl
  | char hc _ ih => rw [dropColours_cons hc, ih]
  | painted role hfree _ _ ih =>
      rw [dropColours_escape, dropColours_append hfree, dropColours_reset, ih]

/-- Every colour is ended behind its text. -/
theorem endsColour
    (h : Tinted spanning coloured plain)
    {role : Role} {before after : List Char}
    (hsplit : coloured = before ++ (role.escape.toList ++ after)) :
    EndsColour spanning after := by
  obtain ⟨parameters, hescape, -⟩ := role.escape_eq
  induction h generalizing before with
  | nil => simp [hescape] at hsplit
  | @char c coloured plain hc _ ih =>
      cases before with
      | nil =>
          rw [hescape] at hsplit
          exact absurd (List.cons.inj hsplit).1 hc
      | cons d before => exact ih (List.cons.inj hsplit).2
  | @painted text coloured plain role' hfree hspanning _ ih =>
      obtain ⟨parameters', hescape', hparameters', -⟩ := role'.escape_eq
      cases before with
      | nil =>
          have hafter := Role.escape_append_inj hsplit
          exact ⟨text, coloured, hafter.symm, hfree, hspanning⟩
      | cons d before =>
          -- the text and the parameters are no place for the sequence, and the reset is another one
          simp only [hescape', hescape, List.cons_append, List.cons.injEq] at hsplit
          have hrest := hsplit.2
          rw [← List.append_assoc] at hrest
          have hnowhere : '\x1b' ∉ (parameters' ++ ['m']) ++ text.toList := by
            simp only [List.mem_append, not_or] at hparameters' hfree ⊢
            exact ⟨hparameters', hfree⟩
          obtain ⟨between, -, hreset⟩ := between_of_not_mem hrest hnowhere
          cases between with
          | nil =>
              rw [List.nil_append, ← List.cons_append, ← hescape] at hreset
              exact absurd hreset.symm Role.escape_append_ne_reset
          | cons e between =>
              have hbracket : ['[', '0', 'm'] ++ coloured =
                  between ++ '\x1b' :: ((parameters ++ ['m']) ++ after) :=
                (List.cons.inj hreset).2
              obtain ⟨between', -, hlater⟩ := between_of_not_mem hbracket (by decide)
              have hcoloured : coloured = between' ++ (role.escape.toList ++ after) := by
                rw [hlater, hescape, List.cons_append]
              exact ih hcoloured

theorem differsByColours {coloured plain : String}
    (h : Tinted spanning coloured.toList plain.toList) :
    DiffersByColours spanning coloured plain where
  removed := (congrArg String.ofList h.dropColours_eq).trans String.ofList_toList
  closed before role after hsplit := by
    rw [List.append_assoc] at hsplit
    exact h.endsColour hsplit

end Tinted

end Tints

end Lox
