import Lox.Proofs.Parse.Relocation
import Lox.Proofs.Places.Run
import Lox.Proofs.Source.Lines
import Lox.Proofs.Source.Registry
import Lox.Proofs.Token.Spelling
import Lox.Proofs.Unwinding

/-!
# All places lie in registered sources

Every source has a relocation that leaves a span where it is if, and only if, it lies in a registered
source (`SourceMap.confinement`). It respects merging, so it changes nothing in what is read from a
registered source, be it a program or errors; and since a relocated program does what the program
does, relocated, it changes nothing in what a session computes either (`Session.confined_after`).
-/

namespace Lox

section Sources

namespace SourceMap

variable {sources : SourceMap} {span : Span}

/-- The span lies in a registered source. -/
def Holds (sources : SourceMap) (span : Span) : Prop :=
  ∃ file, sources.get? span.file = some file ∧ 0 ≤ span.start ∧ span.stop ≤ file.length

theorem Holds.extend {later : SourceMap} (h : sources.Holds span) (hext : sources.Extends later) :
    later.Holds span := by
  obtain ⟨file, hfile, hbounds⟩ := h
  exact ⟨file, hext _ _ hfile, hbounds⟩

/-- A span in a registered source has a position. -/
theorem Holds.position (h : sources.Holds span) : (sources.position? span).isSome := by
  obtain ⟨file, hfile, hstart, hstop⟩ := h
  have hle := span.start_le_stop
  unfold position?
  rw [hfile]
  simp only [SourceFile.position_eq]
  rw [if_pos ⟨hstart, Int.le_trans hle hstop⟩]
  rfl

/-- An offset, or the nearest one within a text of that length. -/
def clamp (length : Nat) (offset : Int) : Int :=
  max 0 (min offset length)

theorem clamp_le_clamp (length : Nat) {a b : Int} (h : a ≤ b) : clamp length a ≤ clamp length b := by
  unfold clamp
  omega

/-- The relocation that moves exactly the spans that lie in no registered source. -/
def confinement (sources : SourceMap) : Relocation where
  span s :=
    match sources.get? s.file with
    | some file =>
        { s with
          start := clamp file.length s.start
          stop := clamp file.length s.stop
          start_le_stop := clamp_le_clamp _ s.start_le_stop }
    | none => { s with file := if s.file ≤ 0 then s.file - 1 else s.file + 1 }
  position := id

/-- The number of the source that a confined span is in. -/
theorem confinement_file (sources : SourceMap) (s : Span) :
    (sources.confinement.span s).file =
      if sources.get? s.file = none then if s.file ≤ 0 then s.file - 1 else s.file + 1
      else s.file := by
  simp only [confinement]
  cases sources.get? s.file <;> rfl

/-- Spans of different sources stay in different sources. -/
theorem confinement_file_ne {a b : Span} (h : b.file ≠ a.file) :
    (sources.confinement.span b).file ≠ (sources.confinement.span a).file := by
  rw [confinement_file, confinement_file]
  have ha := get?_eq_none sources a.file
  have hb := get?_eq_none sources b.file
  split <;> split <;> grind

theorem confinement_merges (sources : SourceMap) : sources.confinement.Merges := by
  intro a b
  by_cases hfile : b.file = a.file
  · rw [Span.merge, if_pos hfile]
    simp only [confinement, hfile]
    cases sources.get? a.file with
    | none => simp [Span.merge]
    | some file =>
        simp only [Span.merge, clamp, if_true, Span.mk.injEq, true_and]
        omega
  · rw [Span.merge, if_neg hfile, Span.merge, if_neg (confinement_file_ne hfile)]

theorem confinement_span_eq : sources.confinement.span span = span ↔ sources.Holds span := by
  have hle := span.start_le_stop
  cases hfile : sources.get? span.file with
  | none =>
      have hmoved : sources.confinement.span span ≠ span := by
        intro h
        have h := congrArg Span.file h
        rw [confinement_file, if_pos hfile] at h
        split at h <;> omega
      have hout : ¬sources.Holds span := by
        rintro ⟨file, h, -⟩
        rw [hfile] at h
        cases h
      exact iff_of_false hmoved hout
  | some file =>
      have hholds : sources.Holds span ↔ 0 ≤ span.start ∧ span.stop ≤ file.length := by
        simp [Holds, hfile]
      rw [hholds]
      obtain ⟨id, start, stop, _⟩ := span
      simp only [confinement, hfile, Span.mk.injEq, true_and, clamp]
      omega

end SourceMap

end Sources

section Fixing

/-- The relocations that leave what the first one leaves where it is. -/
def Relocation.Fixes (r q : Relocation) : Prop :=
  ∀ s, r.span s = s → q.span s = s

theorem SourceMap.Extends.fixes {sources later : SourceMap} (h : sources.Extends later) :
    sources.confinement.Fixes later.confinement :=
  fun _ hs => confinement_span_eq.mpr ((confinement_span_eq.mp hs).extend h)

/-- A tree that the one relocation leaves as it is, the other one leaves as it is. -/
theorem Relocation.Fixes.relocate_all {r q : Relocation} (h : r.Fixes q) :
    (∀ e : Expr, e.relocate r = e → e.relocate q = e) ∧
      (∀ s, Stmt.relocateAll r s = s → Stmt.relocateAll q s = s) ∧
      (∀ s : Stmt, s.relocate r = s → s.relocate q = s) ∧
      (∀ s, Stmt.relocateAll? r s = s → Stmt.relocateAll? q s = s) ∧
      (∀ c, CatchClause.relocate? r c = c → CatchClause.relocate? q c = c) ∧
      (∀ c : CatchClause, c.relocate r = c → c.relocate q = c) ∧
      (∀ d, FunctionDecl.relocateAll r d = d → FunctionDecl.relocateAll q d = d) ∧
      (∀ d : FunctionDecl, d.relocate r = d → d.relocate q = d) ∧
      (∀ s, Stmt.relocate? r s = s → Stmt.relocate? q s = s) ∧
      (∀ e, Expr.relocate? r e = e → Expr.relocate? q e = e) ∧
      (∀ entries, MapEntry.relocateAll r entries = entries →
        MapEntry.relocateAll q entries = entries) ∧
      (∀ entry : MapEntry, entry.relocate r = entry → entry.relocate q = entry) ∧
      (∀ e, Expr.relocateAll r e = e → Expr.relocateAll q e = e) := by
  have hspan := h
  unfold Relocation.Fixes at hspan
  have hparent (parent : Option (String × Span)) :
      parent.map (fun parent => (parent.1, r.span parent.2)) = parent →
        parent.map (fun parent => (parent.1, q.span parent.2)) = parent := by
    cases parent with
    | none => exact fun _ => rfl
    | some parent =>
        intro hr
        have hr := hspan parent.2 (congrArg Prod.snd (Option.some.inj hr))
        exact congrArg some (Prod.ext rfl hr)
  apply Expr.relocate.mutual_induct
  all_goals
    intros
    simp_all [Expr.relocate, Expr.relocateAll, Expr.relocate?, MapEntry.relocate,
      MapEntry.relocateAll, Stmt.relocate, Stmt.relocateAll, Stmt.relocate?, Stmt.relocateAll?,
      CatchClause.relocate, CatchClause.relocate?, FunctionDecl.relocate,
      FunctionDecl.relocateAll]

theorem map_eq_of_fixed
    {α : Type} {f g : α → α} {xs : Array α}
    (h : ∀ a, f a = a → g a = a)
    (hxs : xs.map f = xs) :
    xs.map g = xs := by
  refine Array.ext_getElem? fun i => ?_
  have hi : xs[i]?.map f = xs[i]? := by
    rw [← Array.getElem?_map, hxs]
  rw [Array.getElem?_map]
  cases ha : xs[i]? with
  | none => rfl
  | some a =>
      rw [ha] at hi
      exact congrArg some (h a (Option.some.inj hi))

/-- A machine outside of all calls that the one relocation leaves as it is, the other one leaves as
it is. -/
theorem Relocation.Fixes.move_machine
    {r q : Relocation} {m : Machine}
    (h : r.Fixes q)
    (hframes : m.frames = [])
    (hm : move r m = m) :
    move q m = m := by
  have hbody (body : List Stmt) (hbody : move r body = body) : move q body = body := by
    rw [List.move_eq, Stmt.move_eq, ← Stmt.relocateAll_eq] at hbody ⊢
    exact h.relocate_all.2.1 body hbody
  have hfunctions : m.functions.map (move q) = m.functions := by
    refine map_eq_of_fixed (fun f hf => ?_) (congrArg Machine.functions hm)
    cases f with
    | bound receiver method => rfl
    | closure name params body scope =>
        obtain ⟨-, -, hfixed, -⟩ := FunctionObject.closure.inj hf
        exact congrArg (FunctionObject.closure name params · scope) (hbody body hfixed)
  have hmethods : m.methods.map (move q) = m.methods := by
    refine map_eq_of_fixed (fun f hf => ?_) (congrArg Machine.methods hm)
    have hfixed := hbody f.body (congrArg MethodObject.body hf)
    exact congrArg (fun body => { f with body := body }) hfixed
  have hcalls : move q m.frames = m.frames := by
    rw [hframes]
    rfl
  change { m with
    functions := m.functions.map (move q), methods := m.methods.map (move q),
    frames := move q m.frames } = m
  rw [hfunctions, hmethods, hcalls]

end Fixing

section Steadiness

/-- For every map of sources a relocation that respects merging and leaves where it is what comes up
when a registered source is scanned; further sources make no difference to what it leaves so. -/
structure Relocation.IsSteady (R : SourceMap → Relocation) : Prop where
  merges : ∀ sources, (R sources).Merges
  position : ∀ sources, (R sources).position = id
  fixes : ∀ {sources later : SourceMap}, sources.Extends later → (R sources).Fixes (R later)
  scanned : ∀ {sources : SourceMap} {id : Nat} {file : SourceFile} {event : Except LexError Token},
    sources.get? id = some file → event ∈ scanEvents id file.content.toList →
    (R sources).span (eventSpan event) = eventSpan event

/-- Where a static error is. -/
def StaticError.span : StaticError → Span
  | lexical e => e.span
  | syntactic e => e.span

/-- A syntax error that stays where it is has a place that does. -/
theorem ParseError.span_fixed {r : Relocation} {e : ParseError} (h : move r e = e) :
    r.span e.span = e.span := by
  obtain ⟨fault, token⟩ := e
  have htoken := congrArg (fun e => e.token.span) h
  have hfault := congrArg ParseError.fault h
  cases fault with
  | invalidTarget target => exact ParseFault.invalidTarget.inj hfault
  | expectedToken | expectedExpression | misplaced | tooMany | nestedTooDeeply => exact htoken

/-- All code that the session keeps is left where it is. -/
structure Session.StaysPut (R : SourceMap → Relocation) (s : Session) : Prop where
  numbered : s.sources.IsNumbered
  frames : s.machine.frames = []
  machine : move (R s.sources) s.machine = s.machine

/-- A program that stays where it is, run on such a machine, ends with places that do. -/
theorem Program.run_fixed
    {r : Relocation} {program : Program} {m : Machine}
    (hprogram : move r program.statements = program.statements)
    (hm : move r m = m)
    (limits : Limits)
    (echo : Bool) :
    move r (program.run limits echo m) = program.run limits echo m := by
  have h := Program.run_relocated r program.statements limits echo m
  rw [hprogram, hm] at h
  exact h.symm

namespace Relocation.IsSteady

variable {R : SourceMap → Relocation} (hR : IsSteady R)
variable {sources : SourceMap} {id : Nat} {file : SourceFile} {source : String} {collectAll : Bool}
include hR

section Texts

variable (hfile : sources.get? id = some file) (hcontent : file.content = source)
include hfile hcontent

/-- What is read from the tokens of a registered source stays where it is. -/
theorem tokens
    {tokens : List Token}
    (h : Scan.tokenize id source.toList collectAll = .ok tokens) :
    (∀ program, Program.ofTokens tokens collectAll = .ok program →
      move (R sources) program.statements = program.statements) ∧
    (∀ errors, Program.ofTokens tokens collectAll = .error errors →
      ∀ e ∈ errors, move (R sources) e = e) := by
  subst hcontent
  refine Program.fixed_of_tokens (hR.merges sources) (fun token htoken => ?_) collectAll
  have hevent : Except.ok token ∈ scanEvents id file.content.toList :=
    Scan.tokenize_eq_ok.mp h ▸ List.mem_map_of_mem htoken
  have hfixed : (R sources).span token.span = token.span := hR.scanned hfile hevent
  simp [Relocatable.move, hR.position, hfixed]

/-- A program that was read from a registered source stays where it is. -/
theorem program
    {program : Program}
    (h : Program.ofText id source.toList collectAll = .ok program) :
    move (R sources) program.statements = program.statements := by
  simp only [Program.ofText] at h
  split at h
  · cases h
  · next tokens htokens =>
      split at h
      · cases h
      · next program' hprogram =>
          cases h
          exact (hR.tokens hfile hcontent htokens).1 _ hprogram

/-- The errors of a registered source stay where they are. -/
theorem errors
    {errors : List StaticError}
    (h : Program.ofText id source.toList collectAll = .error errors) :
    ∀ e ∈ errors, (R sources).span e.span = e.span := by
  simp only [Program.ofText] at h
  split at h
  · next faults hfaults =>
      cases h
      intro e he
      obtain ⟨fault, hfault, rfl⟩ := List.mem_map.mp he
      subst hcontent
      exact hR.scanned hfile ((Scan.tokenize_eq_error hfaults).2 fault hfault)
  · next tokens htokens =>
      split at h
      · next faults hfaults =>
          cases h
          intro e he
          obtain ⟨fault, hfault, rfl⟩ := List.mem_map.mp he
          exact ParseError.span_fixed ((hR.tokens hfile hcontent htokens).2 faults hfaults fault hfault)
      · cases h

end Texts

variable {s : Session}

/-- What is registered next, and what is kept, stays where it is. -/
theorem add
    {path : String} {program : Program}
    (hs : s.StaysPut R)
    (hprogram : Program.ofText (s.sources.add path source).2 source.toList collectAll =
      .ok program) :
    let sources := (s.sources.add path source).1
    move (R sources) program.statements = program.statements ∧
      move (R sources) s.machine = s.machine := by
  obtain ⟨-, hextends, file, hfile, hcontent⟩ := SourceMap.add_spec hs.numbered path source
  exact ⟨hR.program hfile hcontent hprogram,
    (hR.fixes hextends).move_machine hs.frames hs.machine⟩

theorem run
    (hs : s.StaysPut R)
    (htop : s.machine.AtTop)
    (source path : String)
    (echo : Bool) :
    (s.run source path echo).2.StaysPut R := by
  obtain ⟨hnumbered, hextends, -⟩ := SourceMap.add_spec hs.numbered path source
  simp only [Session.run]
  split
  · exact ⟨hnumbered, hs.frames, (hR.fixes hextends).move_machine hs.frames hs.machine⟩
  · next program hprogram =>
      obtain ⟨hstatements, hmachine⟩ := hR.add hs hprogram
      have hrun := Program.run_fixed hstatements hmachine s.limits echo
      have hend : move (R (s.sources.add path source).1)
          (program.run s.limits echo s.machine).2 = (program.run s.limits echo s.machine).2 :=
        congrArg Prod.snd hrun
      refine ⟨hnumbered, (program.atTop_run s.limits echo htop).1, ?_⟩
      exact congrArg (fun m => m.takeOutput.2) hend

/-- All code that a session keeps stays where it is. -/
theorem after
    (inputs : List (String × String × Bool))
    (s : Session)
    (hs : s.StaysPut R)
    (htop : s.machine.AtTop) :
    (s.after inputs).StaysPut R := by
  induction inputs generalizing s with
  | nil => exact hs
  | cons input rest ih =>
      have hnext := s.atTop_after [input] htop
      exact ih _ (hR.run hs htop input.1 input.2.1 input.2.2) hnext

end Relocation.IsSteady

theorem Session.staysPut_new
    (R : SourceMap → Relocation)
    (options : Options)
    (fuel : Nat)
    (terminal : Bool)
    (directory : String)
    (showsRelative : Bool)
    (clock : Nat → Float) :
    (Session.new options fuel terminal (.empty directory showsRelative) clock).StaysPut R where
  numbered := SourceMap.isNumbered_empty directory showsRelative
  frames := rfl
  machine := by simp [Session.new, Machine.initial, Relocatable.move]

end Steadiness

section Confined

theorem SourceMap.confinement_steady : Relocation.IsSteady SourceMap.confinement where
  merges := SourceMap.confinement_merges
  position _ := rfl
  fixes := SourceMap.Extends.fixes
  scanned {sources id file event} hfile h := by
    obtain ⟨hid, hstart, hstop⟩ := within_of_scanEvents h
    have hlength : file.length = file.content.toList.length := String.length_toList.symm
    exact SourceMap.confinement_span_eq.mpr ⟨file, hid ▸ hfile, hstart, hlength ▸ hstop⟩

/-- The errors of a registered source lie in it. -/
theorem StaticError.holds_of_ofText
    {sources : SourceMap} {id : Nat} {file : SourceFile} {source : String} {collectAll : Bool}
    (hfile : sources.get? id = some file)
    (hcontent : file.content = source)
    {errors : List StaticError}
    (h : Program.ofText id source.toList collectAll = .error errors) :
    ∀ e ∈ errors, sources.Holds e.span := fun e he =>
  SourceMap.confinement_span_eq.mp
    (SourceMap.confinement_steady.errors hfile hcontent h e he)

/-- All code that the session keeps lies in its sources. -/
structure Session.IsConfined (s : Session) : Prop where
  numbered : s.sources.IsNumbered
  frames : s.machine.frames = []
  machine : move s.sources.confinement s.machine = s.machine

theorem Session.isConfined_iff {s : Session} :
    s.IsConfined ↔ s.StaysPut SourceMap.confinement :=
  ⟨fun h => ⟨h.numbered, h.frames, h.machine⟩, fun h => ⟨h.numbered, h.frames, h.machine⟩⟩

theorem Session.isConfined_new
    (options : Options)
    (fuel : Nat)
    (terminal : Bool)
    (directory : String)
    (showsRelative : Bool)
    (clock : Nat → Float) :
    (Session.new options fuel terminal (.empty directory showsRelative) clock).IsConfined :=
  isConfined_iff.mpr (staysPut_new _ options fuel terminal directory showsRelative clock)

/-- A program that lies in the sources, run on such a machine, ends with places in the sources. -/
theorem Program.confined_run
    {sources : SourceMap} {program : Program} {m : Machine}
    (hprogram : move sources.confinement program.statements = program.statements)
    (hm : move sources.confinement m = m)
    (limits : Limits)
    (echo : Bool) :
    move sources.confinement (program.run limits echo m) = program.run limits echo m :=
  Program.run_fixed hprogram hm limits echo

/-- What is registered next, and what is kept, lies in the sources. -/
theorem Session.IsConfined.add
    {s : Session}
    (hs : s.IsConfined)
    {source path : String} {collectAll : Bool} {program : Program}
    (hprogram : Program.ofText (s.sources.add path source).2 source.toList collectAll =
      .ok program) :
    let sources := (s.sources.add path source).1
    move sources.confinement program.statements = program.statements ∧
      move sources.confinement s.machine = s.machine :=
  SourceMap.confinement_steady.add (isConfined_iff.mp hs) hprogram

/-- **Confinement.** All code that a session keeps lies in its sources. -/
theorem Session.confined_after
    (inputs : List (String × String × Bool))
    (s : Session)
    (hs : s.IsConfined)
    (htop : s.machine.AtTop) :
    (s.after inputs).IsConfined :=
  isConfined_iff.mpr (SourceMap.confinement_steady.after inputs s (isConfined_iff.mp hs) htop)

end Confined

end Lox
