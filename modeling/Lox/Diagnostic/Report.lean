import Lox.Diagnostic

/-!
# Reports

A report shows a diagnostic with an excerpt of the source: the labelled lines and one line of
context on either side, each labelled line underlined from the column at which its span begins.
Reports may be coloured; a `Reporter` counts them and stops showing them beyond a limit.
-/

namespace Lox

/-- When reports are coloured. -/
inductive ColorMode
  | never | always | auto
deriving DecidableEq

namespace ColorMode

/-- The word for a mode. -/
def word : ColorMode → String
  | never => "never"
  | always => "always"
  | auto => "auto"

/-- The modes in the order in which they are offered. -/
def all : List ColorMode := [never, always, auto]

/-- The mode that a word names. -/
def ofWord? (word : String) : Option ColorMode :=
  all.find? (·.word == word)

/-- Are reports coloured? `terminal` says whether they go to a terminal that wants colour. -/
def enabled (mode : ColorMode) (terminal : Bool) : Bool :=
  match mode with
  | never => false
  | always => true
  | auto => terminal

end ColorMode

/-- The parts of a report that have a colour of their own. -/
inductive Role
  | error | note | help | gutter | primary | secondary | trace | summary
deriving DecidableEq

/-- The escape sequence that begins a role. -/
def Role.escape : Role → String
  | error => "\x1b[1;91m"
  | note => "\x1b[94m"
  | help => "\x1b[36m"
  | gutter => "\x1b[94m"
  | primary => "\x1b[91m"
  | secondary => "\x1b[93m"
  | trace => "\x1b[34m"
  | summary => "\x1b[1m"

/-- The escape sequence that ends every colour. -/
def resetEscape : String := "\x1b[0m"

/-- Text in the colour of a role. -/
def paint (colored : Bool) (role : Role) (text : String) : String :=
  if colored && text != "" then role.escape ++ text ++ resetEscape else text

/-- `n` spaces. -/
def spaces (n : Nat) : String :=
  String.ofList (List.replicate n ' ')

namespace Report

/-- A label with the positions of its first and last character. -/
structure Mark where
  label : Label
  first : Position
  last : Position

/-- The labels that lie in the shown source. -/
def marks (sources : SourceMap) (file : SourceFile) (labels : List Label) : List Mark :=
  labels.filterMap fun label =>
    if label.span.file = Int.ofNat file.id then
      match sources.resolve label.span with
      | .ok (_, first, last) => some ⟨label, first, last⟩
      | .error _ => none
    else
      none

/-- The columns, counted from zero, that a mark underlines in the line `number` of `length`
characters: the part of the mark on that line, and at least one column unless the mark begins beyond
the end of the line. -/
def Mark.columns (mark : Mark) (number length : Nat) : Nat × Nat :=
  let start := mark.first.column - 1
  let stop := if mark.last.line = number then min length mark.last.column else length
  (start, min (length + 1) (max (start + 1) stop))

/-- The character that underlines a label. -/
def underlineChar (label : Label) : Char :=
  if label.primary then '^' else '-'

/-- Write `c` at the positions from `start` to before `stop`. -/
def fill (c : Char) (start stop : Nat) (cells : List Char) : List Char :=
  cells.mapIdx fun i old => if start ≤ i ∧ i < stop then c else old

/-- The underline of a line: later marks are drawn over earlier ones. -/
def underline (marks : List Mark) (number length : Nat) : List Char :=
  let blank := List.replicate (length + 1) ' '
  let cells := marks.foldl
    (fun cells mark =>
      let columns := mark.columns number length
      fill (underlineChar mark.label) columns.1 columns.2 cells)
    blank
  (cells.reverse.dropWhile (· == ' ')).reverse

/-- One character of an underline in its colour. -/
def paintCell (colored : Bool) (c : Char) : String :=
  if c = ' ' then " "
  else paint colored (if c = '^' then .primary else .secondary) (String.ofList [c])

/-- The caption below an underline, at the column of its label. -/
def caption? (colored : Bool) (width : Nat) (mark : Mark) : Option String :=
  match mark.label.text with
  | some text =>
      if text = "" then none
      else
        let role := if mark.label.primary then Role.primary else Role.secondary
        some (spaces (width + 3 + (mark.first.column - 1)) ++ paint colored role text)
  | none => none

/-- A line number, padded on the left. -/
def padded (width number : Nat) : String :=
  let digits := toString number
  spaces (width - digits.length) ++ digits

/-- A line of the excerpt: its number, its text and, if labels begin on it, an underline with
captions. -/
def excerptLine
    (colored : Bool)
    (width : Nat)
    (marks : List Mark)
    (number : Nat)
    (text : List Char) :
    List String :=
  let bar := paint colored .gutter "|"
  let shown := paint colored .gutter (padded width number) ++ " " ++ bar ++ " " ++
    String.ofList text
  let starting := marks.filter (·.first.line == number)
  if starting.isEmpty then
    [shown]
  else
    let cells := (underline starting number text.length).map (paintCell colored)
    shown :: (spaces width ++ " " ++ bar ++ " " ++ String.join cells) ::
      starting.filterMap (caption? colored width)

/-- The excerpt of a source around the labels that lie in it. -/
def excerpt (colored : Bool) (file : SourceFile) (marks : List Mark) : List String :=
  match marks with
  | [] => []
  | _ =>
      let firstMarked := (marks.map (·.first.line)).foldl min file.lineCount
      let lastMarked := (marks.map (·.last.line)).foldl max 1
      let firstShown := max 1 (firstMarked - 1)
      let lastShown := min file.lineCount (lastMarked + 1)
      let width := (toString lastShown).length
      let shown := (file.lines.drop (firstShown - 1)).take (lastShown + 1 - firstShown)
      (shown.zipIdx firstShown).flatMap fun (line, number) =>
        excerptLine colored width marks number (SourceFile.shownLine line)

/-- The place of a diagnostic with its excerpt, if the primary label lies in a registered source. -/
def located (colored : Bool) (sources : SourceMap) (d : Diagnostic) : List String :=
  match d.primarySpan?.map sources.resolve with
  | some (.ok (file, first, _)) =>
      paint colored .gutter s!"  --> {sources.shownPath file}:{first.text}" ::
        paint colored .gutter "   |" :: excerpt colored file (marks sources file d.labels)
  | _ => []

/-- The lines of a report. -/
def lines (colored : Bool) (sources : SourceMap) (d : Diagnostic) : List String :=
  let help :=
    match d.help with
    | some text => if text = "" then [] else [paint colored .help s!"   = help: {text}"]
    | none => []
  let isTrace := fun (note : String) => note.startsWith "at "
  let notes := (d.notes.filter (!isTrace ·)).map fun note =>
    paint colored .note s!"   = note: {note}"
  let trace := (d.notes.filter isTrace).map fun entry => paint colored .trace s!"       {entry}"
  let traceHead := if trace.isEmpty then [] else [paint colored .trace "   = stack trace:"]
  let head := paint colored .error d.headline :: located colored sources d
  head ++ help ++ notes ++ traceHead ++ trace

/-- The report of a diagnostic; an empty line ends it. -/
def render (colored : Bool) (sources : SourceMap) (d : Diagnostic) : String :=
  String.join ((lines colored sources d).map (· ++ "\n")) ++ "\n"

end Report

/-- The state of reporting: how many diagnostics were met, and how many are shown at most. -/
structure Reporter where
  colored : Bool
  limit : Nat
  count : Nat
deriving DecidableEq

namespace Reporter

/-- A reporter that has met nothing yet. -/
def new (colored : Bool) (limit : Nat) : Reporter :=
  ⟨colored, limit, 0⟩

/-- How many diagnostics were not shown. -/
def suppressed (r : Reporter) : Nat :=
  r.count - r.limit

/-- Report a diagnostic; the text is empty once the limit is reached. -/
def emit (r : Reporter) (sources : SourceMap) (d : Diagnostic) : Reporter × String :=
  let text := if r.count < r.limit then Report.render r.colored sources d else ""
  ({ r with count := r.count + 1 }, text)

/-- Report diagnostics one after another. -/
def emitAll (r : Reporter) (sources : SourceMap) : List Diagnostic → Reporter × String
  | [] => (r, "")
  | d :: rest =>
      let (r, text) := r.emit sources d
      let (r, later) := r.emitAll sources rest
      (r, text ++ later)

/-- A count with its noun. -/
def counted (n : Nat) (noun : String) : String :=
  if n = 1 then s!"1 {noun}" else s!"{n} {noun}s"

/-- The line that closes a batch of reports. -/
def summary (r : Reporter) : String :=
  if r.count = 0 then
    ""
  else
    let hidden := if r.suppressed = 0 then "" else s!" ({r.suppressed} not shown)"
    paint r.colored .summary (counted r.count "error" ++ " generated" ++ hidden) ++ "\n"

end Reporter

end Lox
