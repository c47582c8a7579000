import RecordCache.Text.Combining
import RecordCache.Text.Hidden

/-!
# Visible characters

A character shows by itself when a text is quoted unless it is hidden or changes the character in
front of it.
-/

namespace RecordCache.Text

/-- Whether a code point lies in one of the ranges. -/
def inRanges (ranges : List (Nat × Nat)) (c : Char) : Bool :=
  ranges.any fun range => range.1 ≤ c.toNat && c.toNat ≤ range.2

/-- Whether the character shows by itself. -/
def isVisible (c : Char) : Bool := !inRanges hiddenRanges c && !inRanges combiningRanges c

end RecordCache.Text
