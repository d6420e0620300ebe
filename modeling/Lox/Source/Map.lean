import Lox.Source.Path
import Lox.Source.Span

/-!
# Registered sources

Every text that is read is registered in a `SourceMap` and keeps its number for good, so a span is
enough to find the file, the line and the column of a part of a program at any later time.
-/

namespace Lox

/-- The lines of a text; a line feed ends a line and begins the next one. -/
def splitLines : List Char → List (List Char)
  | [] => [[]]
  | c :: cs =>
      if c = '\n' then
        [] :: splitLines cs
      else
        match splitLines cs with
        | line :: lines => (c :: line) :: lines
        | [] => [[c]]

/-- How many of the numbers `xs`, which ascend, are at most `x`, where it is known that this is at
least `low` and at most `high`: what lies between is halved. -/
def countUpTo (xs : Array Nat) (x low high : Nat) : Nat :=
  if low < high then
    let middle := (low + high) / 2
    if x < xs.getD middle 0 then countUpTo xs x low middle else countUpTo xs x (middle + 1) high
  else
    low
termination_by high - low

/-- A registered text. -/
structure SourceFile where
  id : Nat
  path : String
  content : String

namespace SourceFile

/-- The characters of the text. -/
def chars (file : SourceFile) : List Char :=
  file.content.toList

/-- The number of characters of the text. -/
def length (file : SourceFile) : Nat :=
  file.content.length

/-- The short name of the source: a pseudo-path as a whole, otherwise the last component. -/
def name (file : SourceFile) : String :=
  if Path.isPseudo file.path then file.path else Path.baseName file.path

/-- The lines of the text. -/
def lines (file : SourceFile) : List (List Char) :=
  splitLines file.chars

/-- The number of lines; an empty text has one. -/
def lineCount (file : SourceFile) : Nat :=
  file.lines.length

/-- The offsets at which the lines of the text begin. -/
def lineStarts (file : SourceFile) : Array Nat :=
  (0 :: file.chars.zipIdx.filterMap fun (c, i) => if c = '\n' then some (i + 1) else none).toArray

/-- The position of a character, or of the end of the text: the line is the last one that begins at
the offset or before it. -/
def position (file : SourceFile) (offset : Int) : Except SourceError Position :=
  if 0 ≤ offset ∧ offset ≤ file.length then
    let starts := file.lineStarts
    let line := countUpTo starts offset.toNat 0 starts.size
    .ok ⟨line, offset.toNat - starts.getD (line - 1) 0 + 1⟩
  else
    .error (.offsetOutside offset file.path)

/-- A line as it is shown: without the carriage returns at its end. -/
def shownLine (line : List Char) : List Char :=
  (line.reverse.dropWhile (· == '\r')).reverse

/-- The text of a line, counted from one, without its end. -/
def line (file : SourceFile) (number : Int) : Except SourceError (List Char) :=
  match if 1 ≤ number then file.lines[(number - 1).toNat]? else none with
  | some line => .ok (shownLine line)
  | none => .error (.noLine number file.path)

end SourceFile

/-- The sources of one session, numbered from one in the order of registration. -/
structure SourceMap where
  files : Array SourceFile
  /-- The number under which each path was registered, its latest registration first. -/
  numbers : List (String × Nat)
  /-- The directory in which relative paths are met. -/
  directory : String
  /-- Are file paths shown relative to that directory? -/
  showsRelative : Bool

namespace SourceMap

/-- No source yet; paths are met in `directory`. -/
def empty (directory : String) (showsRelative : Bool) : SourceMap :=
  ⟨#[], [], directory, showsRelative⟩

/-- The source with a number. -/
def get? (sources : SourceMap) (id : Int) : Option SourceFile :=
  if 1 ≤ id then sources.files[(id - 1).toNat]? else none

/-- The path under which a source is registered. -/
def key (sources : SourceMap) (path : String) : String :=
  if Path.isPseudo path then path else Path.absolute sources.directory path

/-- The latest registration of a path. -/
def latest? (sources : SourceMap) (key : String) : Option SourceFile :=
  (sources.numbers.lookup key).bind fun id => sources.get? id

/-- Register a text. A file whose text has not changed keeps its number; a pseudo-path is shared by
unrelated snippets, so each of them gets a number of its own. -/
def add (sources : SourceMap) (path content : String) : SourceMap × Nat :=
  let key := sources.key path
  let fresh := sources.files.size + 1
  let added :=
    { sources with
      files := sources.files.push ⟨fresh, key, content⟩
      numbers := (key, fresh) :: sources.numbers }
  if Path.isPseudo path then
    (added, fresh)
  else
    match sources.latest? key with
    | some file => if file.content = content then (sources, file.id) else (added, fresh)
    | none => (added, fresh)

/-- The source of a span and the positions of its first and last character. -/
def resolve
    (sources : SourceMap)
    (span : Span) :
    Except SourceError (SourceFile × Position × Position) :=
  match sources.get? span.file with
  | none => .error (.unknownSource span.file)
  | some file => do
      let first ← file.position span.start
      let last ← file.position span.last
      return (file, first, last)

/-- The position at which a span begins, if it lies in a registered source. -/
def position? (sources : SourceMap) (span : Span) : Option Position :=
  match sources.get? span.file with
  | none => none
  | some file => (file.position span.start).toOption

/-- The path of a source as reports show it. -/
def shownPath (sources : SourceMap) (file : SourceFile) : String :=
  if sources.showsRelative && !Path.isPseudo file.path then
    Path.relative sources.directory file.path
  else
    file.path

end SourceMap

end Lox
