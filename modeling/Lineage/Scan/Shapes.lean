import Lineage.Pattern.Basic
import Lineage.Text.Trim
/-!
Shapes of source text shared by the scanners of both languages.

A bracketed expression is read only to a fixed depth: `bracket o c` reads `o`, then any mix
of characters other than `o` and `c` and of bracketed expressions, then `c`, with at most
`bracketDepth` levels nested inside the outer pair. So brackets nested seventeen deep are
still read and anything deeper is not.
-/
namespace Lineage.Scan

open Pattern

/-- How deeply one bracketed expression may nest inside another. -/
def bracketDepth : Nat := 16

/-- A letter of an identifier's first character: ASCII letters and the underscore. -/
def identStart : CharSet :=
  (CharSet.range 'A' 'Z').union ((CharSet.range 'a' 'z').union (CharSet.ofString "_"))

/-- A character of an identifier after the first: also the ASCII digits. -/
def identRest : CharSet := identStart.union (CharSet.range '0' '9')

/-- An identifier standing as a whole word. -/
def identifier : Pattern :=
  wordBoundary ++ chars identStart ++ many (chars identRest) ++ wordBoundary

/-- A brace block whose contents hold no unmasked braces. -/
def flatBlock : Pattern := lit "\x7b" ++ many (noneOf "\x7b\x7d") ++ lit "\x7d"

/-- A balanced expression in `o` and `c` to the scanners' depth. -/
def bracket (o c : Char) : Pattern := balanced o c (bracketDepth + 1)

/-- Whether a character may continue a leading word: ASCII letters, digits, `_`, `-`. -/
def isWordPart (c : Char) : Bool :=
  (c.toNat < 128 && (c.isAlphanum)) || c == '_' || c == '-'

/-- The leading word of a text after its leading blanks: ASCII letters, digits,
underscores and hyphens. -/
def firstWord (s : String) : String :=
  String.ofList ((Text.trimStart s).toList.takeWhile isWordPart)

/-- A type annotation with string quoting removed: after trimming, the first of `'''`,
triple double quotes, `'` and `"` that both opens and closes the text (at least twice its
length long) is stripped, and the inside trimmed again. -/
def decodeType (s : String) : String :=
  let t := Text.trim s
  let quotes := ["'''", "\"\"\"", "'", "\""]
  match quotes.find? fun q =>
      2 * q.utf8ByteSize ≤ t.utf8ByteSize && t.startsWith q && t.endsWith q with
  | some q =>
    let cs := t.toList
    Text.trim (String.ofList ((cs.drop q.length).take (cs.length - 2 * q.length)))
  | none => t

end Lineage.Scan
