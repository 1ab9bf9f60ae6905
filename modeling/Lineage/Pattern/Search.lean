import Lineage.Pattern.Program
import Lineage.Text.Utf8
import Lineage.Text.WordChar
/-!
Searching text for a pattern.

`Program.searchAt prog text pos` finds the leftmost match that starts at offset `pos` or
later, and among matches there the one the pattern prefers. The text before `pos` still
counts for the assertions, so a word boundary or a line start at `pos` is judged by the
character before it.

The search runs the program by backtracking: at a `split` it goes on at the first
target and keeps the second on a stack, and a recorded offset is undone when the run backs
out past its `save`. A pair of program counter and offset that was reached once and
failed fails again whatever the groups hold, so each pair is run at most once per search;
a set of visited pairs, shared by all start offsets, bounds the work by the program's size
times the text's length. That bound is also the fuel of the run, which never runs out.

A start offset whose character the program cannot read first is passed over without a
run: every match there would have to read that character first. The visited set is made
page by page as the run reaches new offsets, so a search that stops early pays only for
the part of the text it looked at.
-/
namespace Lineage

/-- A match: the offsets recorded by the program's slots, and the program's group names. -/
structure Match where
  slots : Array (Option Nat)
  groups : Array String
  deriving Repr, Inhabited

namespace Match

/-- The offset where the match starts. -/
def start (m : Match) : Nat := (m.slots[0]?).bind id |>.getD 0

/-- The offset where the match stops. -/
def stop (m : Match) : Nat := (m.slots[1]?).bind id |>.getD 0

/-- The offsets of a named group, if it took part in the match. -/
def group? (m : Match) (name : String) : Option (Nat × Nat) :=
  match m.groups.idxOf? name with
  | some i =>
    match (m.slots[2 * (i + 1)]?).bind id, (m.slots[2 * (i + 1) + 1]?).bind id with
    | some a, some b => some (a, b)
    | _, _ => none
  | none => none

/-- Whether a named group took part in the match. -/
def has (m : Match) (name : String) : Bool := (m.group? name).isSome

end Match

/-- Work kept for later by the backtracking run: a branch to try, or a slot to restore. -/
inductive Frame where
  | explore (pc pos : Nat)
  | restore (slot : Nat) (old : Option Nat)

/-- A byte array of `n` zero bytes, built by doubling. -/
def zeroBytes (n : Nat) : ByteArray :=
  go (n + 1) (ByteArray.mk #[0])
where
  go : Nat → ByteArray → ByteArray
    | 0, b => b.extract 0 n
    | fuel + 1, b => if n ≤ b.size then b.extract 0 n else go fuel (b ++ b)

/-- The offsets one page of a visited set covers. -/
def pageWidth : Nat := 64

/-- A set of pairs of program counter and offset, for a program of `rows` instructions.
Offsets are grouped in pages of `pageWidth`; a page is a bit set with one bit per pair,
made on its first insertion, so a search pays only for the offsets it reaches. -/
structure Visited where
  rows : Nat
  pages : Array ByteArray

namespace Visited

/-- The empty set over `width` offsets. -/
def empty (rows width : Nat) : Visited :=
  ⟨rows, Array.replicate (width / pageWidth + 1) ByteArray.empty⟩

/-- Whether bit `i` of a bit set is on. -/
def testBit (bits : ByteArray) (i : Nat) : Bool :=
  if h : i / 8 < bits.size then (bits[i / 8] >>> (i % 8).toUInt8) &&& 1 == 1 else false

/-- Turns bit `i` of a bit set on. -/
def setBit (bits : ByteArray) (i : Nat) : ByteArray :=
  if h : i / 8 < bits.size then bits.set (i / 8) (bits[i / 8] ||| ((1 : UInt8) <<< (i % 8).toUInt8))
  else bits

/-- Whether the set holds the pair `(pc, off)`. -/
def contains (v : Visited) (pc off : Nat) : Bool :=
  match v.pages[off / pageWidth]? with
  | some page => testBit page (pc * pageWidth + off % pageWidth)
  | none => false

/-- Adds the pair `(pc, off)`, making its page when it has none yet. -/
def insert (v : Visited) (pc off : Nat) : Visited :=
  let bytes := v.rows * pageWidth / 8 + 1
  { v with pages := v.pages.modify (off / pageWidth) fun page =>
      setBit (if page.size == 0 then zeroBytes bytes else page) (pc * pageWidth + off % pageWidth) }

end Visited

/-- Whether a line starts at offset `i`: at the start of the text or after a line feed. -/
def isLineStart (text : ByteArray) (i : Nat) : Bool :=
  i == 0 || Utf8.byteAt text (i - 1) == 10

/-- Where a balanced expression in `o` and `c` that starts at offset `pos` stops, with
`depth` brackets open before it: each `o` opens one more (failing past `limit`), each `c`
closes one, and the expression stops after the `c` that closes the first `o`. It fails when
it does not start with `o`, at the end of the text and at a byte that starts no character.
The fuel bounds the characters read. -/
def balancedStop (text : ByteArray) (o c : Char) (limit : Nat) : Nat → Nat → Nat → Option Nat
  | 0, _, _ => none
  | fuel + 1, depth, pos =>
    match Utf8.charAt? text pos with
    | none => none
    | some (ch, w) =>
      if ch == o then
        if limit ≤ depth then none else balancedStop text o c limit fuel (depth + 1) (pos + w)
      else if depth == 0 then none
      else if ch == c then
        if depth == 1 then some (pos + w) else balancedStop text o c limit fuel (depth - 1) (pos + w)
      else balancedStop text o c limit fuel depth (pos + w)

namespace Program

/-- Runs the program from the thread `(pc, pos)` when `live`, or else from the top of the
stack, until it accepts or nothing is left to try. Offsets from `base` on are tracked in the
visited set, as offsets from `base`. An ASCII byte is read as its character directly. -/
def run (prog : Program) (text : ByteArray) (base : Nat) :
    Nat → Bool → Nat → Nat → Array Frame → Array (Option Nat) → Visited →
    Option (Array (Option Nat)) × Visited
  | 0, _, _, _, _, _, seen => (none, seen)
  | fuel + 1, false, _, _, stack, slots, seen =>
    match stack.back? with
    | none => (none, seen)
    | some (.restore k old) => run prog text base fuel false 0 0 stack.pop (slots.setIfInBounds k old) seen
    | some (.explore pc pos) => run prog text base fuel true pc pos stack.pop slots seen
  | fuel + 1, true, pc, pos, stack, slots, seen =>
    if seen.contains pc (pos - base) then run prog text base fuel false 0 0 stack slots seen
    else
      let seen := seen.insert pc (pos - base)
      if h : pc < prog.code.size then
        match prog.code[pc] with
        | .chars s =>
          let b := Utf8.byteAt text pos
          if pos < text.size && b < 0x80 then
            if s.mem (Char.ofNat b) then run prog text base fuel true (pc + 1) (pos + 1) stack slots seen
            else run prog text base fuel false 0 0 stack slots seen
          else
            match Utf8.charAt? text pos with
            | some (c, w) =>
              if s.mem c then run prog text base fuel true (pc + 1) (pos + w) stack slots seen
              else run prog text base fuel false 0 0 stack slots seen
            | none => run prog text base fuel false 0 0 stack slots seen
        | .split first second =>
          run prog text base fuel true first pos (stack.push (.explore second pos)) slots seen
        | .jump target => run prog text base fuel true target pos stack slots seen
        | .save k =>
          let old := (slots[k]?).bind id
          run prog text base fuel true (pc + 1) pos (stack.push (.restore k old))
            (slots.setIfInBounds k (some pos)) seen
        | .wordBoundary =>
          if Text.isWordBoundary text pos then run prog text base fuel true (pc + 1) pos stack slots seen
          else run prog text base fuel false 0 0 stack slots seen
        | .lineStart =>
          if isLineStart text pos then run prog text base fuel true (pc + 1) pos stack slots seen
          else run prog text base fuel false 0 0 stack slots seen
        | .balanced o c limit =>
          match balancedStop text o c limit (text.size - pos + 1) 0 pos with
          | some stop => run prog text base fuel true (pc + 1) stop stack slots seen
          | none => run prog text base fuel false 0 0 stack slots seen
        | .accept => (some slots, seen)
      else run prog text base fuel false 0 0 stack slots seen

/-- Whether a match may start at offset `pos`: the program may read nothing, or the
character there is one it may read first. -/
def mayStart (prog : Program) (text : ByteArray) (pos : Nat) : Bool :=
  match prog.first with
  | none => true
  | some s =>
    match Utf8.charAt? text pos with
    | some (c, _) => s.mem c
    | none => false

/-- Tries the start offsets `pos`, `pos + 1`, … that begin a character, `count` of them at
most, and gives the first match. Offsets where no match may start are passed over. -/
def scanStarts (prog : Program) (text : ByteArray) (base fuel : Nat) :
    Nat → Nat → Visited → Option Match
  | 0, _, _ => none
  | count + 1, pos, seen =>
    if Utf8.isBoundary text pos && prog.mayStart text pos then
      let slots := Array.replicate (2 * (prog.groups.size + 1)) none
      match run prog text base fuel true 0 pos #[] slots seen with
      | (some slots, _) => some ⟨slots, prog.groups⟩
      | (none, seen) => scanStarts prog text base fuel count (pos + 1) seen
    else scanStarts prog text base fuel count (pos + 1) seen

/-- The leftmost preferred match starting at offset `pos` or later. -/
def searchAt (prog : Program) (text : ByteArray) (pos : Nat) : Option Match :=
  if text.size < pos then none
  else
    let width := text.size - pos + 1
    let cells := prog.code.size * width
    scanStarts prog text pos (4 * cells + 4) width pos (Visited.empty prog.code.size width)

/-- The successive matches that do not overlap, each search going on where the last match
stopped (one character further after an empty match). -/
def findAll (prog : Program) (text : ByteArray) : List Match :=
  go (text.size + 1) 0
where
  go : Nat → Nat → List Match
    | 0, _ => []
    | fuel + 1, pos =>
      match searchAt prog text pos with
      | none => []
      | some m =>
        let next :=
          if m.start < m.stop then m.stop
          else m.start + (match Utf8.charAt? text m.start with
            | some (_, w) => w
            | none => 1)
        m :: go fuel next

/-- Whether the pattern matches somewhere at offset `pos` or later. -/
def isMatchAt (prog : Program) (text : ByteArray) (pos : Nat) : Bool :=
  (searchAt prog text pos).isSome

end Program

end Lineage
