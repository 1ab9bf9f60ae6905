import Lineage.Text.Blank
import Lineage.Text.Ranges
/-!
Text patterns.

The scanners find declarations, literals and names with patterns over characters. A
`Pattern` is built from character sets by sequence, alternation and repetition, with named
capture groups and two zero-width assertions:

* `chars s` reads one character of the set `s`;
* `seq p q` reads `p`, then `q`;
* `alt p q` tries `p` first and `q` only when no way through `p` completes the match;
* `star p greedy` repeats `p`: as often as possible first when `greedy`, as seldom as
  possible otherwise;
* `group name p` records where `p` started and stopped under `name`;
* `wordBoundary` holds between a word character and a non-word character (the text's ends
  count as non-word), `lineStart` at the start of the text and after each line feed;
* `balanced o c limit` reads `o`, then characters up to the `c` that closes it, where `o`
  and `c` pair up like brackets nested at most `limit` deep (the outer pair counting as
  one level).

A balanced expression is what the pattern `o (other | o (other | …)* c)* c`, unrolled to
`limit` levels with `other` any character but `o` and `c`, reads. That pattern has at most
one way to match at an offset, since every character it reads is forced, so reading it as
one step changes no match and keeps programs short.

Among all ways to match, the one taken is the first in this preference order, and among
start offsets the leftmost: the usual leftmost-first reading of regular expressions with
captures. `Pattern.Program` compiles a pattern and `Pattern.Search` runs it.
-/
namespace Lineage

/-- A set of characters, as ascending, disjoint, inclusive ranges of code points. -/
structure CharSet where
  ranges : Array (Nat × Nat)
  deriving Repr, Inhabited

namespace CharSet

/-- The largest code point. -/
def maxCode : Nat := 0x10FFFF

/-- Whether the set holds a character. -/
def mem (s : CharSet) (c : Char) : Bool := Ranges.contains s.ranges c.toNat

/-- Joins ranges that overlap or touch, given ranges sorted by their lower ends. -/
def mergeSorted : List (Nat × Nat) → List (Nat × Nat)
  | (a, b) :: (c, d) :: rest =>
    if c ≤ b + 1 then mergeSorted ((a, max b d) :: rest)
    else (a, b) :: mergeSorted ((c, d) :: rest)
  | rs => rs
termination_by rs => rs.length

/-- The set of the code points in any of the given inclusive ranges. -/
def ofRanges (rs : List (Nat × Nat)) : CharSet :=
  ⟨(mergeSorted (rs.mergeSort fun x y => x.1 ≤ y.1)).toArray⟩

/-- The set of the characters of a string. -/
def ofString (s : String) : CharSet :=
  ofRanges (s.toList.map fun c => (c.toNat, c.toNat))

/-- The characters from `a` to `b`. -/
def range (a b : Char) : CharSet := ofRanges [(a.toNat, b.toNat)]

/-- The characters in either set. -/
def union (s t : CharSet) : CharSet := ofRanges (s.ranges.toList ++ t.ranges.toList)

/-- The gaps between ascending ranges, starting at `next`, up to the largest code point. -/
def gaps (next : Nat) : List (Nat × Nat) → List (Nat × Nat)
  | [] => if next ≤ maxCode then [(next, maxCode)] else []
  | (a, b) :: rest =>
    if next < a then (next, a - 1) :: gaps (b + 1) rest else gaps (b + 1) rest

/-- The characters not in the set. -/
def complement (s : CharSet) : CharSet := ⟨(gaps 0 s.ranges.toList).toArray⟩

/-- Every character. -/
def any : CharSet := ⟨#[(0, maxCode)]⟩

/-- The blank characters (White_Space). -/
def blank : CharSet := ofRanges Text.blankRanges

end CharSet

/-- A pattern over characters; see the module comment for what each form reads. -/
inductive Pattern where
  | empty
  | chars (s : CharSet)
  | seq (p q : Pattern)
  | alt (p q : Pattern)
  | star (p : Pattern) (greedy : Bool)
  | group (name : String) (p : Pattern)
  | wordBoundary
  | lineStart
  | balanced (o c : Char) (limit : Nat)
  deriving Repr, Inhabited

namespace Pattern

instance : Append Pattern := ⟨seq⟩

instance : OrElse Pattern := ⟨fun p q => alt p (q ())⟩

/-- The characters of a text, one after the other. -/
def lit (s : String) : Pattern :=
  s.toList.foldr (fun c p => match p with
    | .empty => chars (CharSet.range c c)
    | _ => seq (chars (CharSet.range c c)) p) empty

/-- One character of the string. -/
def oneOf (s : String) : Pattern := chars (CharSet.ofString s)

/-- One character not in the string. -/
def noneOf (s : String) : Pattern := chars (CharSet.ofString s).complement

/-- Any character but a line feed. -/
def notNewline : Pattern := noneOf "\n"

/-- Any character at all. -/
def anyChar : Pattern := chars CharSet.any

/-- One blank character. -/
def blank : Pattern := chars CharSet.blank

/-- Zero or more of `p`, as many as possible first. -/
def many (p : Pattern) : Pattern := star p true

/-- Zero or more of `p`, as few as possible first. -/
def manyLazy (p : Pattern) : Pattern := star p false

/-- One or more of `p`, as many as possible first. -/
def many1 (p : Pattern) : Pattern := seq p (star p true)

/-- One or more of `p`, as few as possible first. -/
def many1Lazy (p : Pattern) : Pattern := seq p (star p false)

/-- `p` or nothing, `p` preferred. -/
def opt (p : Pattern) : Pattern := alt p empty

/-- Any run of blanks, the longest first. -/
def blanks : Pattern := many blank

/-- A run of at least one blank, the longest first. -/
def blanks1 : Pattern := many1 blank

/-- The patterns one after the other. -/
def seqs : List Pattern → Pattern
  | [] => empty
  | [p] => p
  | p :: ps => seq p (seqs ps)

/-- The first of the patterns that lets the match complete. -/
def alts : List Pattern → Pattern
  | [] => chars ⟨#[]⟩
  | [p] => p
  | p :: ps => alt p (alts ps)

/-- The words as alternatives, in the order given. -/
def words (ws : List String) : Pattern := alts (ws.map lit)

end Pattern

end Lineage
