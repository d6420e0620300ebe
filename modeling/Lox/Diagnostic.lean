import Lox.Source.Map

/-!
# Diagnostics

A diagnostic is everything needed to report one problem: a code, a message, labelled spans, notes
and a hint. `Diagnostic.of` normalises the labels so that exactly one of them, if there are any,
is the primary one.
-/

namespace Lox

/-- A span with an optional caption. The primary label says where the problem is. -/
structure Label where
  span : Span
  text : Option String
  primary : Bool
deriving DecidableEq

namespace Label

/-- Leave the first primary label primary, and no other. -/
def keepFirstPrimary : List Label → List Label
  | [] => []
  | label :: rest =>
      if label.primary then
        label :: rest.map fun other => { other with primary := false }
      else
        label :: keepFirstPrimary rest

/-- Make exactly one label primary: the first that is so already, otherwise the first. -/
def normalise (labels : List Label) : List Label :=
  if labels.any (·.primary) then
    keepFirstPrimary labels
  else
    match labels with
    | [] => []
    | label :: rest => { label with primary := true } :: rest

/-- A primary label with a caption. -/
def main (span : Span) (text : String) : Label :=
  ⟨span, some text, true⟩

end Label

/-- Everything needed to report one problem. -/
structure Diagnostic where
  code : String
  message : String
  labels : List Label
  notes : List String
  help : Option String
deriving DecidableEq

namespace Diagnostic

/-- The diagnostic with these parts, its labels normalised. -/
def of
    (code message : String)
    (labels : List Label)
    (notes : List String)
    (help : Option String) :
    Diagnostic :=
  ⟨code, message, Label.normalise labels, notes, help⟩

/-- The span of the primary label. -/
def primarySpan? (d : Diagnostic) : Option Span :=
  (d.labels.find? (·.primary)).map (·.span)

/-- Where the problem is, if that lies in a registered source. -/
def position? (d : Diagnostic) (sources : SourceMap) : Option Position :=
  d.primarySpan?.bind sources.position?

/-- The first line of a report. -/
def headline (d : Diagnostic) : String :=
  s!"Error [{d.code}]: {d.message}"

/-- The problem in one line: the headline and, if it is known, the place. -/
def summary (d : Diagnostic) (sources : SourceMap) : String :=
  match d.primarySpan?.bind (fun span => sources.get? span.file), d.position? sources with
  | some file, some position => s!"{d.headline} at {file.name}:{position.text}"
  | _, _ => d.headline

end Diagnostic

end Lox
