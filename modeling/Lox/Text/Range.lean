/-!
# Ranges of code points

Character classes beyond ASCII are tables of closed ranges of code points.
-/

namespace Lox.Text

/-- A closed range of code points: the first and the last one. -/
abbrev Range := Nat × Nat

/-- Does one of the ranges contain the code point? -/
def inRanges (ranges : Array Range) (code : Nat) : Bool :=
  ranges.any fun range => range.1 ≤ code && code ≤ range.2

end Lox.Text
