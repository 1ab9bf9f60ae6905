import Lineage.Text.Blank
/-!
Trimming blanks.

Blanks here are the White_Space characters of `Text.isBlank`, so trimming also removes
no-break and ideographic spaces, and leaves the information separators U+001C to U+001F.
-/
namespace Lineage.Text

/-- The text without its leading blanks. -/
def trimStart (s : String) : String := String.ofList (s.toList.dropWhile isBlank)

/-- The text without its trailing blanks. -/
def trimEnd (s : String) : String :=
  String.ofList (s.toList.reverse.dropWhile isBlank).reverse

/-- The text without leading and trailing blanks. -/
def trim (s : String) : String := trimEnd (trimStart s)

/-- The text with every blank removed. -/
def dropBlanks (s : String) : String := String.ofList (s.toList.filter fun c => !isBlank c)

/-- Whether the text is empty once trimmed. -/
def isBlankText (s : String) : Bool := s.toList.all isBlank

end Lineage.Text
