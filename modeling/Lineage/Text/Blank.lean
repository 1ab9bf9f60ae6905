/-!
Blank characters: the Unicode property White_Space (Unicode 15.0).

This is the class that trimming removes, that masking leaves in place, and that the
scanners' patterns write as a blank. It is wider than ASCII blanks: it holds U+0085, the
no-break space U+00A0, the ogham space mark, the spaces U+2000 to U+200A, the line and
paragraph separators, the narrow no-break space, the medium mathematical space and the
ideographic space. It does not hold the information separators U+001C to U+001F.
-/
namespace Lineage.Text

/-- The code point ranges of White_Space, inclusive and in ascending order. -/
def blankRanges : List (Nat × Nat) :=
  [(0x9, 0xD), (0x20, 0x20), (0x85, 0x85), (0xA0, 0xA0), (0x1680, 0x1680),
   (0x2000, 0x200A), (0x2028, 0x2029), (0x202F, 0x202F), (0x205F, 0x205F),
   (0x3000, 0x3000)]

/-- A blank character is one with the property White_Space. -/
def isBlank (c : Char) : Bool :=
  let n := c.toNat
  if n < 0x80 then (0x9 ≤ n && n ≤ 0xD) || n == 0x20
  else blankRanges.any fun (lo, hi) => lo ≤ n && n ≤ hi

example : isBlank ' ' ∧ isBlank '\n' ∧ isBlank '\x0c' ∧ isBlank '　' ∧
    ¬ isBlank '\x1c' ∧ ¬ isBlank 'a' := by decide

end Lineage.Text
