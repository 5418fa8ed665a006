/-!
The characters of Unicode's property `White_Space`. They separate tokens and mean nothing else.
-/

namespace LoxFrontEnd.Text

/-- First and last code points of the runs of white space. -/
def blankRanges : List (Nat × Nat) :=
  [(0x0009, 0x000D), (0x0020, 0x0020), (0x0085, 0x0085), (0x00A0, 0x00A0), (0x1680, 0x1680),
    (0x2000, 0x200A), (0x2028, 0x2029), (0x202F, 0x202F), (0x205F, 0x205F), (0x3000, 0x3000)]

def isBlank (c : Char) : Bool :=
  blankRanges.any fun range => range.1 ≤ c.toNat && c.toNat ≤ range.2

theorem isBlank_newline : isBlank '\n' = true := by decide

end LoxFrontEnd.Text
