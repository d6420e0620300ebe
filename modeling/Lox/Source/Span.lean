/-!
# Positions and spans

A `Position` is a line and a column, both counted from one. A `Span` is a half-open range of
characters of one registered source; the number of the source and the offsets are integers, since
a span may be written down that lies in no source or outside every text.
-/

namespace Lox

/-- A place in a text: line and column, both counted from one. -/
structure Position where
  line : Nat
  column : Nat
deriving DecidableEq

namespace Position

/-- The place of the first character. -/
def first : Position := ⟨1, 1⟩

/-- The place after the character `c`, which stands at `p`. -/
def next (p : Position) (c : Char) : Position :=
  if c = '\n' then ⟨p.line + 1, 1⟩ else ⟨p.line, p.column + 1⟩

/-- The place after the characters `cs`, the first of which stands at `p`. -/
def after (p : Position) (cs : List Char) : Position :=
  cs.foldl next p

/-- The position as `line:column`. -/
def text (p : Position) : String :=
  s!"{p.line}:{p.column}"

end Position

/-- What can go wrong when a place in a source is looked up. -/
inductive SourceError
  | reversedSpan (start stop : Int)
  | offsetOutside (offset : Int) (path : String)
  | noLine (line : Int) (path : String)
  | unknownSource (id : Int)
deriving DecidableEq

/-- The wording of a failed look-up. -/
def SourceError.message : SourceError → String
  | .reversedSpan start stop => s!"span ends before it starts: {start}..{stop}"
  | .offsetOutside offset path => s!"offset {offset} is outside {path}"
  | .noLine line path => s!"{path} has no line {line}"
  | .unknownSource id => s!"no source registered with ID {id}"

/-- The characters `start`, …, `stop - 1` of one source. -/
structure Span where
  file : Int
  start : Int
  stop : Int
  start_le_stop : start ≤ stop
deriving DecidableEq

namespace Span

/-- The span with the given offsets, unless it ends before it starts. -/
def of? (file start stop : Int) : Except SourceError Span :=
  if h : start ≤ stop then .ok ⟨file, start, stop, h⟩ else .error (.reversedSpan start stop)

/-- The span of `length` characters from the offset `start` on. -/
def ofLength (file start length : Nat) : Span where
  file := file
  start := start
  stop := start + length
  start_le_stop := by omega

/-- The least span that covers both; a span of another source is passed over. -/
def merge (a b : Span) : Span :=
  if b.file = a.file then
    { file := a.file
      start := min a.start b.start
      stop := max a.stop b.stop
      start_le_stop := by have := a.start_le_stop; omega }
  else
    a

/-- The offset of the last character; an empty span stands for the character it precedes. -/
def last (s : Span) : Int :=
  max s.start (s.stop - 1)

end Span

end Lox
