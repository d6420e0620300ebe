import Lox.Proofs.Descent
import Lox.Proofs.Parse.Finding.Statement
import Lox.Proofs.Token.Joining
import Lox.Proofs.Token.Lossless

/-!
# Misplaced constructs are reported exactly

The lenient descent reads a program as if misplaced constructs were no errors. Where it finds no other
error, the library rejects the text if and only if the program that was read so has a misplaced
construct, and it reports each of them once, in the order of the tokens.
-/

namespace Lox.Descent

section Texts

variable {file : Nat} {text : List Char} {tokens : List Token}

/-- No segment is read as the end of the input. -/
theorem kind_ne_endOfInput_of_event
    {token : Token}
    (h : .ok token ∈ (segments text).filterMap (·.event? file)) :
    token.kind ≠ .endOfInput := by
  obtain ⟨segment, hsegment, hevent⟩ := List.mem_filterMap.mp h
  obtain ⟨before, after, hsplit⟩ := List.append_of_mem hsegment
  have htoken : segment.token? file = some token := by
    rw [Segment.token?, hevent]
    rfl
  have hyields := ((Cut.of_text text 0 Position.first).accounted [] rfl file hsplit).yields
  rw [htoken] at hyields
  generalize segment.error? file = e at hyields
  cases hyields with
  | token hkind => exact hkind

/-- The tokens of a text without faults end with its end, and only there. -/
theorem EndsOnce.of_tokenize (h : Scan.tokenize file text true = .ok tokens) : EndsOnce tokens := by
  have hevents := Scan.tokenize_eq_ok.mp h
  have htokens := tokens_eq_concat hevents
  have hinit : (segments text).filterMap (·.event? file) = tokens.dropLast.map .ok := by
    have h := congrArg List.dropLast hevents
    rwa [scanEvents, List.dropLast_concat, ← List.map_dropLast] at h
  refine ⟨?_, fun token htoken => ?_⟩
  · rw [htokens, List.getLast?_concat]
    rfl
  · have hevent : .ok token ∈ (segments text).filterMap (·.event? file) := by
      rw [hinit]
      exact List.mem_map_of_mem htoken
    exact kind_ne_endOfInput_of_event hevent

/-- The tokens of a text stand in the order of their beginnings. -/
theorem tokens_ordered (h : Scan.tokenize file text true = .ok tokens) :
    tokens.Pairwise fun a b => a.span.start ≤ b.span.start := by
  have hevents := scanEvents_ordered file text
  rw [Scan.tokenize_eq_ok.mp h, List.pairwise_map] at hevents
  exact hevents.imp fun hab => Int.le_of_lt hab.start_lt

/-- Reading may begin at the first token. -/
theorem Setting.steady_start
    {T : Setting}
    (h : T.tokens.Pairwise fun a b => a.span.start ≤ b.span.start) :
    (T.cursor 0 []).Steady := by
  obtain ⟨init, final, htokens, hfinal, -⟩ := T.ends.eq_concat
  rw [htokens] at h
  have hlast : T.final = final := by simp [Setting.final, htokens]
  constructor
  · cases init with
    | nil => simp [cursor, htokens]
    | cons token rest =>
        have hinit := (List.pairwise_append.mp h).1
        have hrest : (T.cursor 0 []).rest = token :: rest :=
          (congrArg List.dropLast htokens).trans List.dropLast_concat
        have hprevious : (T.cursor 0 []).previous = token := by simp [cursor, tokenAt, htokens]
        rw [hrest, hprevious]
        refine List.pairwise_cons.mpr ⟨fun later hlater => ?_, hinit⟩
        rcases List.mem_cons.mp hlater with rfl | hlater
        · exact Int.le_refl _
        · exact List.rel_of_pairwise_cons hinit hlater
  · change T.final.kind = .endOfInput
    rw [hlast, hfinal]

end Texts

section Programs

variable {file : Nat} {text : List Char} {tokens : List Token}
variable {bound : Nat} {statements : List Stmt} {σ : State}

/-- If the lenient descent finds no error, reading records only errors of misplaced constructs, those
in the statements that are read. -/
theorem errors_of_lenient
    (hscan : Scan.tokenize file text true = .ok tokens)
    (hbound : enough tokens ≤ bound)
    (hparse : program bound ⟨tokens, .of_tokenize hscan, .lenient⟩ .start = .returned statements σ) :
    ∃ errors, Program.ofTokens tokens true =
        (if errors.isEmpty then .ok ⟨statements⟩ else .error errors) ∧
      AllMisplaced errors ∧ Parse.Names tokens errors (Program.misplaced ⟨statements⟩) := by
  let T : Setting := ⟨tokens, .of_tokenize hscan, .lenient⟩
  rcases program_agrees (T := T) hbound with
    ⟨read, τ, t, hreader, herrors, hdescent⟩ | ⟨errors, τ, hreader, herrors, hne, hdescent⟩
  · rw [hparse] at hdescent
    split at hdescent
    · next hnone =>
        injection hdescent with hread
        subst hread
        rw [List.isEmpty_iff.mp hnone] at herrors
        have hall : AllMisplaced t.errors := fun e he => by
          have := List.filter_eq_nil_iff.mp herrors.symm e he
          simpa [Setting.counts, T, Mode.reportsMisplaced] using this
        have hfound := Parse.Locates.program .outermost _ (T.context .outermost) (T.cursor 0 []) rfl
          (Setting.steady_start (tokens_ordered hscan)) (Int.le_refl _)
        rw [hreader] at hfound
        obtain ⟨taken, recorded, hgrown, hnames⟩ := hfound
        have hrecorded : t.errors = recorded := hgrown.errors
        rw [hrecorded] at hall
        obtain ⟨_, hnamed, rfl⟩ := hnames hall
        refine ⟨recorded, ?_, hall, ?_⟩
        · have hlibrary := ofTokens_eq T
          rw [hreader] at hlibrary
          rw [← hrecorded]
          exact hlibrary
        · have hrest : tokens.dropLast = taken ++ t.rest := hgrown.rest
          refine ⟨hnamed.tokens.trans ?_, hnamed.places⟩
          refine .trans ?_ (List.dropLast_sublist tokens)
          rw [hrest]
          exact List.sublist_append_left _ _
    · cases hdescent
  · rw [hparse] at hdescent
    cases hdescent

/-- Of a text that scans, and parses but for misplaced constructs, the errors are those of the misplaced
constructs of the program so read: one for each, in the order of the tokens, at its keyword or at the
name of the superclass. The text is a program, the one so read, if and only if there are none. -/
theorem misplaced_reported
    (hscan : Scan.tokenize file text true = .ok tokens)
    (hbound : enough tokens ≤ bound)
    (hparse : program bound ⟨tokens, .of_tokenize hscan, .lenient⟩ .start = .returned statements σ) :
    let sites := Program.misplaced ⟨statements⟩
    sites = [] ∧ Program.ofText file text true = .ok ⟨statements⟩ ∨
      sites ≠ [] ∧ ∃ found : List ParseError,
        Program.ofText file text true = .error (found.map .syntactic) ∧
        found.map ParseError.place = sites.map Site.place ∧
        (found.map (·.token)).Sublist tokens ∧
        ∀ e ∈ found, e.code = "LOX2004" := by
  intro sites
  obtain ⟨errors, htokens, hall, hnames⟩ := errors_of_lenient hscan hbound hparse
  have htext : Program.ofText file text true =
      if errors.isEmpty then .ok ⟨statements⟩ else .error (errors.map .syntactic) := by
    simp only [Program.ofText, hscan, htokens]
    cases errors.isEmpty <;> rfl
  have hplaces : errors.map ParseError.place = sites.map Site.place := hnames.places
  cases errors with
  | nil => exact .inl ⟨List.map_eq_nil_iff.mp hplaces.symm, htext⟩
  | cons first rest =>
      refine .inr ⟨fun hsites => ?_, first :: rest, htext, hplaces, hnames.tokens, fun e he => ?_⟩
      · rw [hsites] at hplaces
        cases hplaces
      · have hfault := hall e he
        unfold ParseFault.isMisplaced at hfault
        split at hfault
        · next construct heq => simp [ParseError.code, heq]
        · cases hfault

/-- A loop around a function with a jump, a class that names itself, and a method of another class. -/
def misplacedText : List Char :=
  "while (1) \x7b fun f() \x7b break; \x7d \x7d class A < A \x7b \x7d class B \x7b m() \x7b super.m; \x7d \x7d return this;".toList

theorem tokenize_misplacedText :
    Scan.tokenize 0 misplacedText true = .ok (Scan.ofText 0 misplacedText true).tokens := by
  unfold Scan.tokenize
  exact if_pos (by decide +kernel)

/-- Its five misplaced constructs are reported in order. -/
theorem misplaced_reported_nested :
    ∃ statements σ, ∃ hscan : Scan.tokenize 0 misplacedText true
        = .ok (Scan.ofText 0 misplacedText true).tokens,
      program (enough (Scan.ofText 0 misplacedText true).tokens) ⟨_, .of_tokenize hscan, .lenient⟩ .start
        = .returned statements σ ∧
      ∃ found : List ParseError,
        Program.ofText 0 misplacedText true = .error (found.map .syntactic) ∧
        found.map (fun e => (e.fault, e.token.span.start)) =
          [(.misplaced .breakOutsideLoop, 22), (.misplaced .ownSuperclass, 43),
            (.misplaced .superWithoutSuperclass, 65), (.misplaced .returnOutsideFunction, 78),
            (.misplaced .thisOutsideClass, 85)] := by
  have hsites : (match program (enough (Scan.ofText 0 misplacedText true).tokens)
        ⟨_, .of_tokenize tokenize_misplacedText, .lenient⟩ .start with
      | .returned statements _ => (Program.misplaced ⟨statements⟩).map Site.place
      | _ => []) =
        [(.misplaced .breakOutsideLoop, .breakKeyword, 22), (.misplaced .ownSuperclass, .identifier, 43),
          (.misplaced .superWithoutSuperclass, .superKeyword, 65),
          (.misplaced .returnOutsideFunction, .returnKeyword, 78),
          (.misplaced .thisOutsideClass, .thisKeyword, 85)] := by
    decide +kernel
  cases hparse : program (enough (Scan.ofText 0 misplacedText true).tokens)
      ⟨_, .of_tokenize tokenize_misplacedText, .lenient⟩ .start with
  | returned statements σ =>
      simp only [hparse] at hsites
      refine ⟨statements, σ, tokenize_misplacedText, hparse, ?_⟩
      rcases misplaced_reported tokenize_misplacedText (Nat.le_refl _) hparse with
        ⟨hnone, -⟩ | ⟨-, found, htext, hplaces, -⟩
      · rw [hnone] at hsites
        cases hsites
      · have hfound := congrArg (List.map fun p => (p.1, p.2.2)) (hplaces.trans hsites)
        exact ⟨found, htext, by simpa [ParseError.place, Function.comp_def] using hfound⟩
  | raised e σ =>
      rw [hparse] at hsites
      cases hsites
  | aborted σ =>
      rw [hparse] at hsites
      cases hsites
  | running =>
      rw [hparse] at hsites
      cases hsites

end Programs

end Lox.Descent
