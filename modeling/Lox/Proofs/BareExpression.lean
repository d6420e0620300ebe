import Lox.Proofs.Parse.Joining
import Lox.Proofs.Tiers
import Lox.Session.Interactive

/-!
# Lines without a semicolon

Whether a line is given a semicolon is decided by its last character, but whether one is missing is
decided by its tokens. A line that ends neither with a semicolon nor with a brace is answered as if a
semicolon had been entered with it. Any other line is run as it is: if it is a program by itself, its
last character stands in a comment and the semicolon would make no difference; if it is not, it is
rejected, even where the semicolon would complete it.
-/

namespace Lox

namespace Text

/-- A semicolon at the end of a text is not trimmed. -/
theorem trimChars_append_semicolon (cs : List Char) :
    trimChars (cs ++ [';']) = cs.dropWhile isBlank ++ [';'] := by
  have hkept : (cs ++ [';']).dropWhile isBlank = cs.dropWhile isBlank ++ [';'] := by
    rw [List.dropWhile_append]
    split
    · next hnil =>
        rw [List.isEmpty_iff.mp hnil]
        rfl
    · rfl
  have hlast : (';' :: (cs.dropWhile isBlank).reverse).dropWhile isBlank =
      ';' :: (cs.dropWhile isBlank).reverse :=
    List.dropWhile_cons_of_neg (by decide)
  rw [trimChars, trimWhere, hkept, List.reverse_append, List.reverse_singleton,
    List.singleton_append, hlast, List.reverse_cons, List.reverse_reverse]

end Text

/-- Is the program one expression? -/
def Program.isExpression (program : Program) : Bool :=
  program.statements matches [.expression ..]

theorem Program.exists_expression
    {file : Nat} {text : List Char} {collectAll : Bool}
    (h : (ofText file text collectAll).toOption.any isExpression = true) :
    ∃ e span, ofText file text collectAll = .ok ⟨[.expression e span]⟩ := by
  cases hread : ofText file text collectAll with
  | error errors => rw [hread] at h; cases h
  | ok program =>
      rw [hread] at h
      obtain ⟨statements⟩ := program
      change isExpression ⟨statements⟩ = true at h
      match statements, h with
      | [.expression e span], _ => exact ⟨e, span, rfl⟩

namespace Interactive

/-- The last character of the line, white space apart, is a semicolon or a brace. -/
def SeemsComplete (line : String) : Prop :=
  (Text.trimChars line.toList).getLast? = some ';' ∨
    (Text.trimChars line.toList).getLast? = some '\x7d'

instance (line : String) : Decidable (SeemsComplete line) :=
  inferInstanceAs (Decidable (_ ∨ _))

section Lines

variable {s : Session} {line : String}

/-- A line that seems to be complete is run as it is. -/
theorem completed_of_seemsComplete (h : SeemsComplete line) : completed line = line := by
  obtain hc | hc := h <;> simp only [completed, hc, or_true, true_or, if_true]

/-- Any other line that is not blank is given a semicolon. -/
theorem completed_of_not_seemsComplete
    (hline : Text.trimChars line.toList ≠ [])
    (h : ¬SeemsComplete line) :
    completed line = line ++ ";" := by
  have hc := List.getLast?_eq_some_getLast hline
  simp only [SeemsComplete, hc, Option.some.injEq] at h
  simp only [completed, hc, if_neg h]

theorem trimChars_semicolon (line : String) :
    Text.trimChars (line ++ ";").toList = line.toList.dropWhile Text.isBlank ++ [';'] := by
  rw [String.toList_append]
  exact Text.trimChars_append_semicolon line.toList

theorem seemsComplete_semicolon (line : String) : SeemsComplete (line ++ ";") := by
  left
  rw [trimChars_semicolon, List.getLast?_concat]

/-- Any line but a blank one and the one that ends the session is run. -/
theorem feed_line (hexit : Text.trim line ≠ "exit") (hblank : Text.trim line ≠ "") :
    feed s (.line line) =
      (⟨(s.run (completed line) "<repl>" true).1.stdout,
        (s.run (completed line) "<repl>" true).1.stderr, true⟩,
        (s.run (completed line) "<repl>" true).2) := by
  simp only [feed, if_neg hexit, if_neg hblank]

/-- A line with a semicolon behind it is run as it is. -/
theorem feed_semicolon (s : Session) (line : String) :
    feed s (.line (line ++ ";")) =
      (⟨(s.run (line ++ ";") "<repl>" true).1.stdout,
        (s.run (line ++ ";") "<repl>" true).1.stderr, true⟩,
        (s.run (line ++ ";") "<repl>" true).2) := by
  have hne (text : String) (htext : text.toList.getLast? ≠ some ';') :
      Text.trim (line ++ ";") ≠ text := by
    rintro rfl
    rw [Text.trim, trimChars_semicolon, String.toList_ofList, List.getLast?_concat] at htext
    exact htext rfl
  rw [feed_line (hne "exit" (by decide)) (hne "" (by decide)),
    completed_of_seemsComplete (seemsComplete_semicolon line)]

/-- Every line gets a number of its own, whatever its text. -/
theorem add_line (sources : SourceMap) (line : String) :
    (sources.add "<repl>" line).2 = sources.files.size + 1 := by
  have hpseudo : Path.isPseudo "<repl>" = true := by decide +kernel
  rw [SourceMap.add, if_pos hpseudo]

/-- What a line does that is a program. -/
theorem run_line
    {program : Program}
    (h : Program.ofText (s.sources.files.size + 1) line.toList s.options.collectAll = .ok program) :
    s.run line "<repl>" true =
      (⟨(program.run s.limits true s.machine).1,
          (program.run s.limits true s.machine).2.takeOutput.1,
          (program.run s.limits true s.machine).1.report s.reporter
            (s.sources.add "<repl>" line).1⟩,
        { s with
          sources := (s.sources.add "<repl>" line).1
          machine := (program.run s.limits true s.machine).2.takeOutput.2 }) := by
  rw [← add_line s.sources line] at h
  simp only [Session.run, h]

end Lines

/-- If a line with a semicolon behind it is a program, the semicolon makes no difference to a line
that ends neither with a semicolon nor with a brace. Any other line is rejected, and nothing else
happens, unless its last character stands in a comment, in which case the same program is run. -/
theorem bare_expression_answered
    (s : Session)
    (line : String)
    {e : Expr}
    {span : Span}
    (hexit : Text.trim line ≠ "exit")
    (hblank : Text.trim line ≠ "")
    (haccepted : Program.ofText (s.sources.add "<repl>" (line ++ ";")).2 (line ++ ";").toList
      s.options.collectAll = .ok ⟨[.expression e span]⟩) :
    (¬SeemsComplete line → feed s (.line line) = feed s (.line (line ++ ";"))) ∧
    (SeemsComplete line →
      (∃ errors, errors ≠ [] ∧
        Program.ofText (s.sources.add "<repl>" line).2 line.toList s.options.collectAll =
          .error errors ∧
        feed s (.line line) =
          (⟨"", (Ending.rejected errors).report s.reporter (s.sources.add "<repl>" line).1, true⟩,
            { s with sources := (s.sources.add "<repl>" line).1 })) ∨
      EndsInComment line.toList ∧ ∃ (ending : Ending) (stdout : String) (machine : Machine),
        ∀ entered ∈ [line, line ++ ";"],
          feed s (.line entered) =
            (⟨stdout, ending.report s.reporter (s.sources.add "<repl>" entered).1, true⟩,
              { s with sources := (s.sources.add "<repl>" entered).1, machine := machine })) := by
  have hline : Text.trimChars line.toList ≠ [] := by
    intro hnil
    rw [Text.trim, hnil] at hblank
    exact hblank rfl
  refine ⟨fun hbare => ?_, fun hcomplete => ?_⟩
  · rw [feed_line hexit hblank, completed_of_not_seemsComplete hline hbare, feed_semicolon]
  cases hread : Program.ofText (s.sources.add "<repl>" line).2 line.toList s.options.collectAll with
  | error errors =>
      refine .inl ⟨errors, (AreStaticErrors.of_ofText hread).1, rfl, ?_⟩
      rw [feed_line hexit hblank, completed_of_seemsComplete hcomplete, Session.run_rejected hread]
  | ok program =>
      rw [add_line] at hread haccepted
      rw [String.toList_append] at haccepted
      obtain ⟨hcomment, rfl⟩ := Program.ofText_semicolon hread haccepted
      let outcome := Program.run ⟨[.expression e span]⟩ s.limits true s.machine
      refine .inr ⟨hcomment, outcome.1, outcome.2.takeOutput.1, outcome.2.takeOutput.2, ?_⟩
      rintro entered hentered
      simp only [List.mem_cons, List.not_mem_nil, or_false] at hentered
      rcases hentered with rfl | rfl
      · rw [feed_line hexit hblank, completed_of_seemsComplete hcomplete, run_line hread]
      · rw [feed_semicolon, run_line (by rwa [String.toList_append])]

/-- A line that ends with a letter, and one that ends with a brace. -/
theorem bare_expression_answered_nil :
    let s := Session.new .default 100 false (.empty "" false) fun _ => 0
    feed s (.line "nil") = feed s (.line ("nil" ++ ";")) ∧
      ∃ errors : List StaticError, errors ≠ [] ∧
        feed s (.line "() => \x7b\x7d") =
          (⟨"", (Ending.rejected errors).report s.reporter (s.sources.add "<repl>" "() => \x7b\x7d").1,
            true⟩, { s with sources := (s.sources.add "<repl>" "() => \x7b\x7d").1 }) := by
  intro s
  obtain ⟨e, span, hnil⟩ := @Program.exists_expression
    (s.sources.add "<repl>" ("nil" ++ ";")).2 ("nil" ++ ";").toList s.options.collectAll
    (by decide +kernel)
  obtain ⟨e', span', harrow⟩ := @Program.exists_expression
    (s.sources.add "<repl>" ("() => \x7b\x7d" ++ ";")).2 ("() => \x7b\x7d" ++ ";").toList
    s.options.collectAll (by decide +kernel)
  constructor
  · exact (bare_expression_answered s "nil" (by decide +kernel) (by decide +kernel) hnil).1
      (by decide +kernel)
  · have hanswered := (bare_expression_answered s "() => \x7b\x7d" (by decide +kernel) (by decide +kernel)
      harrow).2 (by decide +kernel)
    obtain ⟨errors, hne, -, hrejected⟩ :=
      hanswered.resolve_right fun hcomment => absurd hcomment.1 (by decide +kernel)
    exact ⟨errors, hne, hrejected⟩

/-- An arrow function is a bare expression and ends with a brace: without a semicolon it is rejected,
and nothing is printed. -/
theorem arrow_function_needs_semicolon :
    let s := Session.new .default 100 false (.empty "" false) fun _ => 0
    let line := "() => \x7b\x7d"
    (∃ e span, Text.trim line ≠ "exit" ∧ Text.trim line ≠ "" ∧
      Program.ofText (s.sources.add "<repl>" (line ++ ";")).2 (line ++ ";").toList
        s.options.collectAll = .ok ⟨[.expression e span]⟩) ∧
      (feed s (.line (line ++ ";"))).1 = ⟨"<fn lambda>\n", "", true⟩ ∧
      (feed s (.line line)).1.stdout = "" ∧
      (s.run line "<repl>" true).1.ending = .rejected [.syntactic
        ⟨.expectedToken "';' after expression" none, .endOfInput, "", none, ⟨1, 9⟩, 1, 8, 8,
          by decide⟩] := by
  intro s line
  obtain ⟨e, span, haccepted⟩ := @Program.exists_expression
    (s.sources.add "<repl>" (line ++ ";")).2 (line ++ ";").toList s.options.collectAll
    (by decide +kernel)
  exact ⟨⟨e, span, by decide +kernel, by decide +kernel, haccepted⟩, by decide +kernel,
    by decide +kernel, by decide +kernel⟩

end Interactive

end Lox
