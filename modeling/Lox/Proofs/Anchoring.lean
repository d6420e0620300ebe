import Lox.Proofs.Confinement

/-!
# Where spans begin

What is read from a text begins where a token or a fault begins: at a character that neither ends a
line nor is a carriage return, or at the end of the text. Merging spans keeps that, so all places that
are kept and reported are such places: as for confinement, there is a relocation that moves all other
spans (`SourceMap.anchoring`), and it changes nothing in what is read.
-/

namespace Lox

/-- A place in the text at which a token may begin: at its end, or before a character that neither
ends a line nor is a carriage return. -/
def SourceFile.anchors (file : SourceFile) (offset : Int) : Bool :=
  0 ≤ offset && offset ≤ file.length &&
    match file.chars[offset.toNat]? with
    | some c => c ≠ '\n' && c ≠ '\r'
    | none => true

/-- Where what begins at an offset is moved: back, unless a token may begin there. -/
def SourceFile.anchor (file : SourceFile) (offset : Int) : Int :=
  if file.length < offset then file.length
  else if file.anchors offset then offset
  else offset - 1

namespace SourceFile

variable {file : SourceFile} {a b : Int}

theorem anchor_le : file.anchor a ≤ a ∧ file.anchor a ≤ file.length := by
  unfold anchor
  split
  · omega
  · split <;> omega

theorem anchor_start_le (file : SourceFile) (s : Span) :
    file.anchor s.start ≤ min s.stop file.length :=
  Int.le_min.mpr ⟨Int.le_trans anchor_le.1 s.start_le_stop, anchor_le.2⟩

theorem anchor_mono (h : a ≤ b) : file.anchor a ≤ file.anchor b := by
  rcases Int.lt_or_eq_of_le h with hlt | rfl
  · have ha := @anchor_le file a
    conv_rhs => unfold anchor
    split
    · omega
    · split <;> omega
  · exact Int.le_refl _

theorem anchor_min : file.anchor (min a b) = min (file.anchor a) (file.anchor b) := by
  rcases Int.le_total a b with h | h
  · rw [Int.min_eq_left h, Int.min_eq_left (anchor_mono h)]
  · rw [Int.min_eq_right h, Int.min_eq_right (anchor_mono h)]

theorem anchor_eq_self : file.anchor a = a ↔ file.anchors a = true := by
  have hbounds : file.anchors a = true → a ≤ file.length := by
    simp only [anchors, Bool.and_eq_true, decide_eq_true_eq]
    exact fun h => h.1.2
  unfold anchor
  split
  · refine iff_of_false (by omega) fun h => ?_
    have := hbounds h
    omega
  · split
    · next h => exact iff_of_true rfl h
    · next h => exact iff_of_false (by omega) h

end SourceFile

namespace SourceMap

variable {sources : SourceMap} {span : Span}

/-- The span lies in a registered source, and a token may begin where it begins. -/
def Anchors (sources : SourceMap) (span : Span) : Prop :=
  ∃ file, sources.get? span.file = some file ∧ file.anchors span.start = true ∧
    span.stop ≤ file.length

/-- The relocation that moves exactly the spans that are not anchored. -/
def anchoring (sources : SourceMap) : Relocation where
  span s :=
    match sources.get? s.file with
    | some file =>
        { s with
          start := file.anchor s.start
          stop := min s.stop file.length
          start_le_stop := file.anchor_start_le s }
    | none => sources.confinement.span s
  position := id

theorem anchoring_file (s : Span) :
    (sources.anchoring.span s).file = (sources.confinement.span s).file := by
  rw [confinement_file]
  simp only [anchoring]
  cases h : sources.get? s.file with
  | none => rw [confinement_file, h]
  | some file => simp

theorem anchoring_merges (sources : SourceMap) : sources.anchoring.Merges := by
  intro a b
  by_cases hfile : b.file = a.file
  · cases hget : sources.get? a.file with
    | none =>
        have hconfined (s : Span) (hs : s.file = a.file) :
            sources.anchoring.span s = sources.confinement.span s := by
          simp only [anchoring, hs, hget]
        rw [hconfined _ (by rw [Span.merge, if_pos hfile]), hconfined a rfl, hconfined b hfile]
        exact confinement_merges sources a b
    | some file =>
        rw [Span.merge, if_pos hfile]
        simp only [anchoring, hfile, hget]
        simp only [Span.merge, if_true, Span.mk.injEq, true_and]
        exact ⟨SourceFile.anchor_min, by omega⟩
  · have hne : (sources.anchoring.span b).file ≠ (sources.anchoring.span a).file := by
      rw [anchoring_file, anchoring_file]
      exact confinement_file_ne hfile
    rw [Span.merge, if_neg hfile, Span.merge, if_neg hne]

theorem anchoring_span_eq : sources.anchoring.span span = span ↔ sources.Anchors span := by
  cases hfile : sources.get? span.file with
  | none =>
      have hout : ¬sources.Holds span := by
        rintro ⟨file, h, -⟩
        rw [hfile] at h
        cases h
      have hmoved : ¬sources.anchoring.span span = span := by
        simp only [anchoring, hfile]
        exact fun h => hout (confinement_span_eq.mp h)
      refine iff_of_false hmoved ?_
      rintro ⟨file, h, -⟩
      rw [hfile] at h
      cases h
  | some file =>
      have hanchors : sources.Anchors span ↔
          file.anchors span.start = true ∧ span.stop ≤ file.length := by
        simp [Anchors, hfile]
      rw [hanchors, ← SourceFile.anchor_eq_self]
      obtain ⟨id, start, stop, _⟩ := span
      simp only [anchoring, hfile, Span.mk.injEq, true_and]
      refine and_congr_right fun _ => ?_
      omega

theorem Anchors.extend {later : SourceMap} (h : sources.Anchors span) (hext : sources.Extends later) :
    later.Anchors span := by
  obtain ⟨file, hfile, hbounds⟩ := h
  exact ⟨file, hext _ _ hfile, hbounds⟩

end SourceMap

section Scanning

/-- What a segment yields was read at its first character, which is where the text has it. -/
theorem Cut.first
    {offset : Nat} {position : Position} {text : List Char} {segments : List Segment}
    (h : Cut offset position text segments) :
    ∀ s ∈ segments, ∃ c rest, text[s.offset - offset]? = some c ∧ s.piece = (Piece.read c rest).1 := by
  induction h with
  | nil => nofun
  | @cons offset position c taken rest piece segments hread hrest ih =>
      intro s hs
      rcases List.mem_cons.mp hs with rfl | hs
      · exact ⟨c, taken ++ rest, by simp, by rw [hread]⟩
      · obtain ⟨d, more, hd, hpiece⟩ := ih s hs
        have hle := (hrest.within s hs).1
        refine ⟨d, more, ?_, hpiece⟩
        rw [← hd, show s.offset - offset = s.offset - (offset + 1 + taken.length) + taken.length + 1
          by omega, List.getElem?_cons_succ, List.getElem?_append_right (by omega)]
        congr 1
        omega

/-- White space yields nothing, so what comes up does not begin with it. -/
theorem anchors_of_scanEvents
    {id : Nat} {file : SourceFile} {event : Except LexError Token}
    (h : event ∈ scanEvents id file.content.toList) :
    file.anchors (eventSpan event).start = true := by
  obtain ⟨-, hstart, hstop⟩ := within_of_scanEvents h
  have hle := (eventSpan event).start_le_stop
  have hlength : file.length = file.content.toList.length := String.length_toList.symm
  have hbound : (eventSpan event).start ≤ file.length := by omega
  simp only [SourceFile.anchors, Bool.and_eq_true, decide_eq_true_eq]
  refine ⟨⟨hstart, hbound⟩, ?_⟩
  rcases List.mem_append.mp h with h | h
  · obtain ⟨segment, hsegment, hevent⟩ := List.mem_filterMap.mp h
    obtain ⟨c, rest, hc, hpiece⟩ := (Cut.of_text _ 0 Position.first).first segment hsegment
    have hread : (Piece.read c rest).1 ≠ .skipped := by
      intro hskipped
      rw [Segment.event?, hpiece, hskipped] at hevent
      cases hevent
    rw [eventSpan_start hevent, Int.toNat_natCast, SourceFile.chars]
    rw [Nat.sub_zero] at hc
    simp only [hc, Bool.and_eq_true, decide_eq_true_eq]
    constructor <;> (rintro rfl; exact hread rfl)
  · cases List.mem_singleton.mp h
    simp [eventSpan, endToken, Span.ofLength, SourceFile.chars]

theorem SourceMap.anchoring_steady : Relocation.IsSteady SourceMap.anchoring where
  merges := SourceMap.anchoring_merges
  position _ := rfl
  fixes hext _ h := SourceMap.anchoring_span_eq.mpr ((SourceMap.anchoring_span_eq.mp h).extend hext)
  scanned {sources id file event} hfile h := by
    obtain ⟨hid, -, hstop⟩ := within_of_scanEvents h
    have hlength : file.length = file.content.toList.length := String.length_toList.symm
    exact SourceMap.anchoring_span_eq.mpr
      ⟨file, hid ▸ hfile, anchors_of_scanEvents h, hlength ▸ hstop⟩

end Scanning

end Lox
