import Mathlib.Data.List.Forall2
import Lox.Proofs.Colouring.Tint
import Lox.Proofs.Rendering
import Lox.Proofs.Source.Characters

/-!
# Coloured reports

A coloured report is a plain one in which some texts are painted. Widths are taken and columns are
counted before anything is painted, so each line of the one is the tinted line of the other, and so are
the whole reports and what is written of a batch of diagnostics.
-/

namespace Lox

section Reports

/-- None of the texts of a diagnostic has the character. -/
structure Diagnostic.Lacks (c : Char) (d : Diagnostic) : Prop where
  code : c ∉ d.code.toList
  message : c ∉ d.message.toList
  labels : ∀ label ∈ d.labels, ∀ text ∈ label.text, c ∉ text.toList
  notes : ∀ note ∈ d.notes, c ∉ note.toList
  help : ∀ text ∈ d.help, c ∉ text.toList

/-- Neither the path nor the content of a source has the character. -/
structure SourceFile.Lacks (c : Char) (file : SourceFile) : Prop where
  path : c ∉ file.path.toList
  content : c ∉ file.content.toList

namespace Report

/-- The texts that a report paints in one piece and that do not come from the report itself. -/
inductive Given (sources : SourceMap) (d : Diagnostic) : String → Prop
  | headline : Given sources d d.headline
  | place {span : Span} {file : SourceFile} {first last : Position} :
      span ∈ d.primarySpan? → sources.resolve span = .ok (file, first, last) →
      Given sources d s!"  --> {sources.shownPath file}:{first.text}"
  | help {text : String} : text ∈ d.help → Given sources d s!"   = help: {text}"
  | note {note : String} : note ∈ d.notes → Given sources d s!"   = note: {note}"
  | traceEntry {entry : String} : entry ∈ d.notes → Given sources d s!"       {entry}"
  | caption {label : Label} {text : String} :
      label ∈ d.labels → text ∈ label.text → Given sources d text

/-- The second text is the first one without colours. -/
abbrev Tints (spanning : String → Prop) (coloured plain : String) : Prop :=
  Tinted spanning coloured.toList plain.toList

variable {spanning : String → Prop}

namespace Tints

theorem append {a a' b b' : String} (h : Tints spanning a a') (h' : Tints spanning b b') :
    Tints spanning (a ++ b) (a' ++ b') := by
  rw [Tints, String.toList_append, String.toList_append]
  exact Tinted.append h h'

/-- A text that is not painted. -/
theorem plain {text : String} (h : '\x1b' ∉ text.toList) : Tints spanning text text := by
  have hchars : ∀ chars : List Char, '\x1b' ∉ chars → Tinted spanning chars chars := by
    intro chars hchars
    induction chars with
    | nil => exact .nil
    | cons c chars ih =>
        obtain ⟨hc, hrest⟩ := List.ne_and_not_mem_of_not_mem_cons hchars
        exact .char hc.symm (ih hrest)
  exact hchars text.toList h

theorem painted (role : Role) {text : String} (h : '\x1b' ∉ text.toList)
    (hspanning : '\n' ∈ text.toList → spanning text) :
    Tints spanning (paint true role text) (paint false role text) := by
  have hfalse : paint false role text = text := rfl
  rw [hfalse]
  unfold paint
  split
  · have hends := Tinted.painted role h hspanning .nil
    simpa [Tints] using hends
  · exact plain h

/-- A painted text that is on one line. -/
theorem paintedLine (role : Role) {text : String} (h : '\x1b' ∉ text.toList)
    (hfeed : '\n' ∉ text.toList) :
    Tints spanning (paint true role text) (paint false role text) :=
  painted role h fun hmem => absurd hmem hfeed

theorem join {coloured plain : List String} (h : List.Forall₂ (Tints spanning) coloured plain) :
    Tints spanning (String.join coloured) (String.join plain) := by
  rw [Tints, String.toList_join, String.toList_join]
  induction h with
  | nil => exact .nil
  | cons hfirst _ ih =>
      rw [List.flatMap_cons, List.flatMap_cons]
      exact Tinted.append hfirst ih

end Tints

/-- No caption of a mark has the escape character, and those that have a line feed may have it. -/
def CaptionsFit (spanning : String → Prop) (marks : List Mark) : Prop :=
  ∀ mark ∈ marks, ∀ text ∈ mark.label.text,
    '\x1b' ∉ text.toList ∧ ('\n' ∈ text.toList → spanning text)

section Excerpts

theorem not_mem_spaces {c : Char} (hc : c ≠ ' ') (n : Nat) : c ∉ (spaces n).toList := by
  rw [spaces, String.toList_ofList]
  exact fun h => hc (List.eq_of_mem_replicate h)

theorem not_mem_padded {c : Char} (hspace : c ≠ ' ') (hdigit : c.isDigit = false)
    (width number : Nat) :
    c ∉ (padded width number).toList := by
  rw [padded, String.toList_append, List.mem_append, not_or]
  exact ⟨not_mem_spaces hspace _, not_mem_toString hdigit number⟩

theorem mem_fill {c d : Char} {start stop : Nat} {cells : List Char}
    (h : d ∈ fill c start stop cells) :
    d = c ∨ d ∈ cells := by
  obtain ⟨i, hi, rfl⟩ := List.mem_mapIdx.mp h
  split
  · exact .inl rfl
  · exact .inr (List.getElem_mem hi)

theorem mem_underline {marks : List Mark} {number length : Nat} {c : Char}
    (h : c ∈ underline marks number length) :
    c = ' ' ∨ c = '^' ∨ c = '-' := by
  have hcells : ∀ (marks : List Mark) (cells : List Char),
      (∀ d ∈ cells, d = ' ' ∨ d = '^' ∨ d = '-') →
      ∀ d ∈ marks.foldl (fun cells mark => fill (underlineChar mark.label)
        (mark.columns number length).1 (mark.columns number length).2 cells) cells,
          d = ' ' ∨ d = '^' ∨ d = '-' := by
    intro marks
    induction marks with
    | nil => exact fun _ h => h
    | cons mark marks ih =>
        refine fun cells h => ih _ fun d hd => ?_
        rcases mem_fill hd with rfl | hd
        · unfold underlineChar
          split
          · exact .inr (.inl rfl)
          · exact .inr (.inr rfl)
        · exact h d hd
  have hdrawn := (List.dropWhile_suffix _).subset (List.mem_reverse.mp h)
  refine hcells marks _ (fun d hd => ?_) c (List.mem_reverse.mp hdrawn)
  exact .inl (List.eq_of_mem_replicate hd)

theorem tints_paintCell {c : Char} (h : c = ' ' ∨ c = '^' ∨ c = '-') :
    Tints spanning (paintCell true c) (paintCell false c) := by
  rcases h with rfl | rfl | rfl
  · exact .plain (by decide)
  · have hprimary : Tints spanning (paint true .primary "^") (paint false .primary "^") :=
      .paintedLine .primary (by decide) (by decide)
    exact hprimary
  · have hsecondary : Tints spanning (paint true .secondary "-") (paint false .secondary "-") :=
      .paintedLine .secondary (by decide) (by decide)
    exact hsecondary

theorem tints_caption? {marks : List Mark} (hmarks : CaptionsFit spanning marks) (width : Nat) :
    ∀ mark ∈ marks,
      Option.Rel (Tints spanning) (caption? true width mark) (caption? false width mark) := by
  intro mark hmark
  unfold caption?
  split
  · next text htext =>
      obtain ⟨hfree, hspanning⟩ := hmarks mark hmark text htext
      split
      · exact .none
      · exact .some (.append (.plain (not_mem_spaces (by decide) _)) (.painted _ hfree hspanning))
  · exact .none

theorem forall₂_self_mem {α : Type} (as : List α) :
    List.Forall₂ (fun a b => a = b ∧ a ∈ as) as as :=
  List.forall₂_same.mpr fun _ ha => ⟨rfl, ha⟩

theorem forall₂_filterMap {α β : Type} {R : β → β → Prop} {f g : α → Option β} {as : List α}
    (h : ∀ a ∈ as, Option.Rel R (f a) (g a)) :
    List.Forall₂ R (as.filterMap f) (as.filterMap g) := by
  refine List.rel_filterMap ?_ (forall₂_self_mem as)
  rintro a _ ⟨rfl, ha⟩
  exact h a ha

theorem forall₂_flatMap {α β : Type} {R : β → β → Prop} {f g : α → List β} {as : List α}
    (h : ∀ a ∈ as, List.Forall₂ R (f a) (g a)) :
    List.Forall₂ R (as.flatMap f) (as.flatMap g) := by
  refine List.rel_flatMap (forall₂_self_mem as) ?_
  rintro a _ ⟨rfl, ha⟩
  exact h a ha

theorem forall₂_map {α β : Type} {R : β → β → Prop} {f g : α → β} {as : List α}
    (h : ∀ a ∈ as, R (f a) (g a)) :
    List.Forall₂ R (as.map f) (as.map g) := by
  rw [List.forall₂_map_left_iff, List.forall₂_map_right_iff, List.forall₂_same]
  exact h

theorem tints_excerptLine {marks : List Mark} {text : List Char}
    (hmarks : CaptionsFit spanning marks)
    (htext : '\x1b' ∉ text)
    (width number : Nat) :
    List.Forall₂ (Tints spanning) (excerptLine true width marks number text)
      (excerptLine false width marks number text) := by
  have hspace : Tints spanning " " " " := .plain (by decide)
  have hbar : Tints spanning (paint true .gutter "|") (paint false .gutter "|") :=
    .paintedLine .gutter (by decide) (by decide)
  have hnumber : Tints spanning (paint true .gutter (padded width number))
      (paint false .gutter (padded width number)) :=
    .paintedLine .gutter (not_mem_padded (by decide) (by decide) width number)
      (not_mem_padded (by decide) (by decide) width number)
  have hline : Tints spanning (String.ofList text) (String.ofList text) :=
    .plain (by rwa [String.toList_ofList])
  have hshown := (((hnumber.append hspace).append hbar).append hspace).append hline
  unfold excerptLine
  dsimp only
  split
  · exact .cons hshown .nil
  · refine .cons hshown (.cons ?_ (forall₂_filterMap fun mark hmark => ?_))
    · have hmargin : Tints spanning (spaces width) (spaces width) :=
        .plain (not_mem_spaces (by decide) width)
      refine (((hmargin.append hspace).append hbar).append hspace).append (.join ?_)
      exact forall₂_map fun c hc => tints_paintCell (mem_underline hc)
    · exact tints_caption? hmarks width mark (List.mem_filter.mp hmark).1

theorem tints_excerpt {file : SourceFile} {marks : List Mark}
    (hmarks : CaptionsFit spanning marks)
    (hfile : file.Lacks '\x1b') :
    List.Forall₂ (Tints spanning) (excerpt true file marks) (excerpt false file marks) := by
  unfold excerpt
  split
  · exact .nil
  · refine forall₂_flatMap fun (line, number) hline => tints_excerptLine hmarks ?_ _ _
    have hmem := List.mem_of_mem_drop (List.mem_of_mem_take (List.fst_mem_of_mem_zipIdx hline))
    exact fun h => hfile.content (mem_of_mem_splitLines hmem (mem_of_mem_shownLine h))

end Excerpts

section Lines

variable {sources : SourceMap} {d : Diagnostic}

theorem captionsFit_marks (hd : d.Lacks '\x1b') (file : SourceFile) :
    CaptionsFit (Given sources d) (marks sources file d.labels) := by
  intro mark hmark text htext
  obtain ⟨label, hlabel, hmade⟩ := List.mem_filterMap.mp hmark
  have hsame : mark.label = label := by
    split at hmade
    · split at hmade
      · cases hmade
        rfl
      · cases hmade
    · cases hmade
  rw [hsame] at htext
  exact ⟨hd.labels label hlabel text htext, fun _ => .caption hlabel htext⟩

theorem not_mem_append {c : Char} {s t : String} (hs : c ∉ s.toList) (ht : c ∉ t.toList) :
    c ∉ (s ++ t).toList := by
  rw [String.toList_append, List.mem_append, not_or]
  exact ⟨hs, ht⟩

theorem not_mem_headline (hd : d.Lacks '\x1b') : '\x1b' ∉ d.headline.toList :=
  not_mem_append (not_mem_append (not_mem_append (by decide) hd.code) (by decide)) hd.message

theorem not_mem_position (p : Position) : '\x1b' ∉ p.text.toList := by
  have hnumber (n : Nat) : '\x1b' ∉ (toString n).toList := not_mem_toString (by decide) n
  exact not_mem_append (not_mem_append (hnumber p.line) (by decide)) (hnumber p.column)

theorem mem_files_of_resolve {span : Span} {file : SourceFile} {first last : Position}
    (h : sources.resolve span = .ok (file, first, last)) :
    file ∈ sources.files := by
  unfold SourceMap.resolve at h
  split at h
  · cases h
  · next found hfound =>
      have hsame : found = file := by
        cases hfirst : found.position span.start with
        | error e => rw [hfirst] at h; cases h
        | ok p =>
            cases hlast : found.position span.last with
            | error e => rw [hfirst, hlast] at h; cases h
            | ok q =>
                rw [hfirst, hlast] at h
                cases h
                rfl
      unfold SourceMap.get? at hfound
      split at hfound
      · exact hsame ▸ Array.mem_of_getElem? hfound
      · cases hfound

theorem tints_located
    (hsources : ∀ file ∈ sources.files, file.Lacks '\x1b')
    (hd : d.Lacks '\x1b') :
    List.Forall₂ (Tints (Given sources d)) (located true sources d) (located false sources d) := by
  unfold located
  split
  · next file first last hresolve =>
      obtain ⟨span, hprimary, hspan⟩ := Option.map_eq_some_iff.mp hresolve
      have hfile := hsources file (mem_files_of_resolve hspan)
      have hpath : '\x1b' ∉ (sources.shownPath file).toList :=
        SourceMap.not_mem_shownPath hfile.path (by decide) (by decide)
      have hplace : '\x1b' ∉ (s!"  --> {sources.shownPath file}:{first.text}").toList :=
        not_mem_append (not_mem_append (not_mem_append (by decide) hpath) (by decide))
          (not_mem_position first)
      refine .cons (.painted .gutter hplace fun _ => .place hprimary hspan) (.cons ?_ ?_)
      · exact .paintedLine .gutter (by decide) (by decide)
      · exact tints_excerpt (captionsFit_marks hd file) hfile
  · exact .nil

theorem tints_lines
    (hsources : ∀ file ∈ sources.files, file.Lacks '\x1b')
    (hd : d.Lacks '\x1b') :
    List.Forall₂ (Tints (Given sources d)) (lines true sources d) (lines false sources d) := by
  have hheadline : Tints (Given sources d) (paint true .error d.headline)
      (paint false .error d.headline) :=
    .painted .error (not_mem_headline hd) fun _ => .headline
  unfold lines
  dsimp only
  refine List.rel_append (List.rel_append (List.rel_append (List.rel_append
    (.cons hheadline (tints_located hsources hd)) ?help) ?notes) ?traceHead) ?trace
  case help =>
    cases hhelp : d.help with
    | none => exact .nil
    | some text =>
        dsimp only
        split
        · exact .nil
        · have hfree : '\x1b' ∉ (s!"   = help: {text}").toList :=
            not_mem_append (by decide) (hd.help text hhelp)
          exact .cons (.painted .help hfree fun _ => .help hhelp) .nil
  case notes =>
    refine forall₂_map fun note hnote => ?_
    have hmem := (List.mem_filter.mp hnote).1
    have hfree : '\x1b' ∉ (s!"   = note: {note}").toList :=
      not_mem_append (by decide) (hd.notes note hmem)
    exact .painted .note hfree fun _ => .note hmem
  case traceHead =>
    rw [List.isEmpty_map, List.isEmpty_map]
    split
    · exact .nil
    · exact .cons (.paintedLine .trace (by decide) (by decide)) .nil
  case trace =>
    refine forall₂_map fun entry hentry => ?_
    have hmem := (List.mem_filter.mp hentry).1
    have hfree : '\x1b' ∉ (s!"       {entry}").toList :=
      not_mem_append (by decide) (hd.notes entry hmem)
    exact .painted .trace hfree fun _ => .traceEntry hmem

theorem tints_render
    (hsources : ∀ file ∈ sources.files, file.Lacks '\x1b')
    (hd : d.Lacks '\x1b') :
    Tints (Given sources d) (render true sources d) (render false sources d) := by
  have hfeed : Tints (Given sources d) "\n" "\n" := .plain (by decide)
  refine .append (.join ?_) hfeed
  rw [List.forall₂_map_left_iff, List.forall₂_map_right_iff]
  exact (tints_lines hsources hd).imp fun _ _ hline => hline.append hfeed

end Lines

end Report

end Reports

section Batches

open Report

variable {sources : SourceMap} {ds : List Diagnostic}

/-- What a reporter writes of some diagnostics, and the line that closes them. -/
def Reporter.batch (r : Reporter) (sources : SourceMap) (ds : List Diagnostic) : String :=
  let (r, text) := r.emitAll sources ds
  text ++ r.summary

/-- The closing line is made of a few words and of digits. -/
theorem not_mem_counts {c : Char} (hdigit : c.isDigit = false)
    (hwords : ∀ word ∈ [" ", "error", "s", " generated", " (", " not shown)"], c ∉ word.toList)
    (count hidden : Nat) :
    c ∉ (Reporter.counted count "error" ++ " generated" ++
      if hidden = 0 then "" else s!" ({hidden} not shown)").toList := by
  have hnumber (n : Nat) : c ∉ (toString n).toList := not_mem_toString hdigit n
  have hcounted : c ∉ (Reporter.counted count "error").toList := by
    have herror := hwords "error" (by decide)
    unfold Reporter.counted
    split
    · next h => exact not_mem_append (not_mem_append (h ▸ hnumber count) (hwords " " (by decide))) herror
    · exact not_mem_append (not_mem_append (not_mem_append (hnumber count) (hwords " " (by decide)))
        herror) (hwords "s" (by decide))
  refine not_mem_append (not_mem_append hcounted (hwords " generated" (by decide))) ?_
  split
  · exact List.not_mem_nil
  · exact not_mem_append (not_mem_append (hwords " (" (by decide)) (hnumber hidden))
      (hwords " not shown)" (by decide))

theorem tints_summary (spanning : String → Prop) (limit count : Nat) :
    Tints spanning (Reporter.mk true limit count).summary (Reporter.mk false limit count).summary := by
  unfold Reporter.summary
  dsimp only
  split
  · exact .plain (by decide)
  · refine .append (.paintedLine .summary ?_ ?_) (.plain (by decide))
    · exact not_mem_counts (by decide) (by decide) count (count - limit)
    · exact not_mem_counts (by decide) (by decide) count (count - limit)

/-- What is written of a batch in colours is tinted as a whole. -/
theorem tints_batch
    (hsources : ∀ file ∈ sources.files, file.Lacks '\x1b')
    (hds : ∀ d ∈ ds, d.Lacks '\x1b')
    (limit count : Nat) :
    Tints (fun text => ∃ d ∈ ds, Given sources d text)
      ((Reporter.mk true limit count).batch sources ds)
      ((Reporter.mk false limit count).batch sources ds) := by
  simp only [Reporter.batch, Reporter.emitAll_eq]
  refine .append (.join (forall₂_map fun d hd => ?_)) (tints_summary _ limit _)
  have hmem := List.mem_of_mem_take hd
  exact (tints_render hsources (hds d hmem)).mono fun text htext => ⟨d, hmem, htext⟩

/-- **Colours are all that is added.** Where no text of the diagnostics, no source and no path of a
source has an escape character, what is written in colours of one diagnostic, or of a batch of them with
any limit and after any number of earlier ones, is what is written without colours once the colour
sequences are removed. And whatever colour begins anywhere in it, it ends behind a text in which no other
one begins: on the same line, unless this text has a line feed, and then it is a text that one of the
diagnostics brought with it. -/
theorem colours_removed
    (terminal : Bool)
    (limit count : Nat)
    (hsources : ∀ file ∈ sources.files, file.Lacks '\x1b')
    (hds : ∀ d ∈ ds, d.Lacks '\x1b') :
    let report (mode : ColorMode) (d : Diagnostic) := render (mode.enabled terminal) sources d
    let batch (mode : ColorMode) :=
      (Reporter.mk (mode.enabled terminal) limit count).batch sources ds
    (∀ d ∈ ds, DiffersByColours (Given sources d) (report .always d) (report .never d)) ∧
      DiffersByColours (fun text => ∃ d ∈ ds, Given sources d text) (batch .always)
        (batch .never) := by
  constructor
  · exact fun d hd => (tints_render hsources (hds d hd)).differsByColours
  · exact (tints_batch hsources hds limit count).differsByColours

/-- A report of which the first line is two lines. -/
theorem colours_removed_two_lines :
    let sources : SourceMap := ⟨#[⟨1, "<repl>", "print x;\n"⟩], [("<repl>", 1)], "/", false⟩
    let d : Diagnostic :=
      ⟨"LOX3001", "x is\nunknown", [⟨⟨1, 6, 7, by decide⟩, some "here", true⟩], ["at f"], some "y?"⟩
    (∀ file ∈ sources.files, file.Lacks '\x1b') ∧ d.Lacks '\x1b' ∧
      DiffersByColours (Given sources d) (render true sources d) (render false sources d) := by
  intro sources d
  have hsources : ∀ file ∈ sources.files, file.Lacks '\x1b' := by
    intro file hfile
    obtain rfl : file = ⟨1, "<repl>", "print x;\n"⟩ := by simpa [sources] using hfile
    exact ⟨by decide, by decide⟩
  have hd : d.Lacks '\x1b' := ⟨by decide, by decide, by decide, by decide, by decide⟩
  have hds : ∀ e ∈ [d], e.Lacks '\x1b' := fun e he => List.mem_singleton.mp he ▸ hd
  exact ⟨hsources, hd, (colours_removed false 1 0 hsources hds).1 d List.mem_cons_self⟩

end Batches

end Lox
