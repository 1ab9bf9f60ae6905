/-!
Doubles read from decimal numbers and shown again.

A finite non-negative double is `m × 2 ^ b` with an integer significand `m < 2 ^ 53` and an
exponent `b ≥ -1074`; it is normal when `2 ^ 52 ≤ m`. Reading a decimal rounds its exact
value to the nearest double, an exact tie going to the even significand; a value that
rounds past the largest double is infinite.

Showing a double gives the fewest significant digits that read back as the same double,
and among those the digits nearest to it. A decimal reads back as the double `v` when it
lies strictly between the midpoints from `v` to its neighbours, or on one of them when the
significand of `v` is even (the tie then goes to `v`). For a significand of exactly
`2 ^ 52` the lower midpoint is taken at half the distance of the upper one, as it is below a
power of two; the smallest normal double is read the same way. Of two shortest candidates
equally near, the upper one is taken.

All of this is exact arithmetic on natural numbers: a decimal `n × 10 ^ e` and a double
`m × 2 ^ b` are compared by moving the negative powers to the other side.
-/
namespace Lineage

/-- A finite non-negative double: the value `mant × 2 ^ exp`. -/
structure Double where
  mant : Nat
  exp : Int
  deriving Repr, Inhabited, BEq

namespace Double

/-- The bits of a significand. -/
def precision : Nat := 53

/-- The exponent of the smallest subnormal double. -/
def minExp : Int := -1074

/-- The largest exponent of a finite double with a normal significand. -/
def maxExp : Int := 971

/-- The number of decimal digits of `n` (one for zero). -/
def digitCount (n : Nat) : Nat := (Nat.toDigits 10 n).length

/-- How `x × 10 ^ t` compares with `y × 2 ^ s`, exactly. -/
def compareScaled (x : Nat) (t : Int) (y : Nat) (s : Int) : Ordering :=
  compare (x * Nat.pow 10 t.toNat * Nat.pow 2 (-s).toNat)
    (y * Nat.pow 2 s.toNat * Nat.pow 10 (-t).toNat)

/-- The value `n × 10 ^ e` divided by `2 ^ k`, as a numerator and a denominator. -/
def fraction (n : Nat) (e k : Int) : Nat × Nat :=
  (n * Nat.pow 10 e.toNat * Nat.pow 2 (-k).toNat, Nat.pow 10 (-e).toNat * Nat.pow 2 k.toNat)

/-- The exponent `k` with `2 ^ k ≤ n × 10 ^ e < 2 ^ (k + 1)`, for `n > 0`. -/
def binaryLog (n : Nat) (e : Int) : Int :=
  let (a, d) := fraction n e 0
  let guess : Int := (Nat.log2 a : Int) - Nat.log2 d
  let (a', d') := fraction n e guess
  if d' ≤ a' then guess else guess - 1

/-- The double nearest to `n × 10 ^ e`, or `none` when that is infinite. Values far outside
the range of doubles are settled by their number of digits alone. -/
def ofDecimal (n : Nat) (e : Int) : Option Double :=
  if n == 0 then some ⟨0, minExp⟩
  else if (digitCount n : Int) + e < -330 then some ⟨0, minExp⟩
  else if (digitCount n : Int) + e > 311 then none
  else
    let b := max (binaryLog n e - (precision - 1 : Nat)) minExp
    let (a, d) := fraction n e b
    let m := a / d
    let r := a % d
    let m := if 2 * r > d || (2 * r == d && m % 2 == 1) then m + 1 else m
    let (m, b) := if m == Nat.pow 2 precision then (Nat.pow 2 (precision - 1), b + 1) else (m, b)
    if b > maxExp then none else some ⟨m, b⟩

/-- The double as a numerator and a denominator. -/
def toFraction (v : Double) : Nat × Nat :=
  (v.mant * Nat.pow 2 v.exp.toNat, Nat.pow 2 (-v.exp).toNat)

/-- The decimal exponent `p` with `10 ^ (p - 1) ≤ v < 10 ^ p`, for `v > 0`. -/
def decimalPlace (v : Double) : Int :=
  let (a, d) := v.toFraction
  let k := digitCount d + 1
  (digitCount (a * Nat.pow 10 k / d) : Int) - k

/-- Whether `c × 10 ^ j` reads back as the double: it lies between the midpoints to the
neighbours, on them only for an even significand. The bounds are in units of
`2 ^ (exp - 2)`. -/
def readsBack (v : Double) (c : Nat) (j : Int) : Bool :=
  let high := 4 * v.mant + 2
  let low := if v.mant == Nat.pow 2 (precision - 1) then 4 * v.mant - 1 else 4 * v.mant - 2
  let even := v.mant % 2 == 0
  let above := compareScaled c j low (v.exp - 2)
  let below := compareScaled c j high (v.exp - 2)
  (above == .gt || (even && above == .eq)) && (below == .lt || (even && below == .eq))

/-- The digits `c` with `c × 10 ^ j` nearest to the double among those that read back
as it, trying `k` digits and then more, up to `fuel` more. -/
def shortestFrom (v : Double) (p : Int) : Nat → Nat → Option (Nat × Int)
  | 0, _ => none
  | fuel + 1, k =>
    let j := p - k
    let (a, d) := v.toFraction
    let below := a * Nat.pow 10 (-j).toNat / (d * Nat.pow 10 j.toNat)
    let above := below + 1
    let lowOk := v.readsBack below j
    let highOk := v.readsBack above j
    if lowOk && highOk then
      if compareScaled (2 * below + 1) j (2 * v.mant) v.exp == .gt then some (below, j)
      else some (above, j)
    else if lowOk then some (below, j)
    else if highOk then some (above, j)
    else shortestFrom v p fuel (k + 1)

/-- The shortest digits `c` and exponent `j` with `c × 10 ^ j` reading back as the double;
zero gives no digits. -/
def shortest (v : Double) : Nat × Int :=
  if v.mant == 0 then (0, 0)
  else
    let p := v.decimalPlace
    match shortestFrom v p 17 1 with
    | some r => r
    | none =>
      let (a, d) := v.toFraction
      let j := p - 17
      ((2 * a * Nat.pow 10 (-j).toNat / (d * Nat.pow 10 j.toNat) + 1) / 2, j)

end Double

end Lineage
