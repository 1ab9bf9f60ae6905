import Lineage.Pattern.Search
import Lineage.Text.Blank
/-!
Source text under an overlay.

An `Overlay` pairs a source text with a view of the same byte length. Patterns are always
matched against the view; once a region has been consumed it is masked there: each
non-blank character of the view is overwritten by one copy of a fill byte per byte of
the character, so that byte offsets never move and blanks stay where they were. What a
scanner records is always read from the source at the matched offsets.

A range given to an operation is first clamped to the text and widened outwards to
character boundaries of the source (`Overlay.widen`); a range whose end lies before its
start is empty at its start.
-/
namespace Lineage

/-- The byte written over consumed text, the control character U+001A. -/
def maskByte : UInt8 := 0x1a

/-- A byte array with one byte replaced; an offset past the end changes nothing. -/
def setByte (bs : ByteArray) (i : Nat) (v : UInt8) : ByteArray :=
  if h : i < bs.size then bs.set i v else bs

theorem size_setByte (bs : ByteArray) (i : Nat) (v : UInt8) :
    (setByte bs i v).size = bs.size := by
  unfold setByte
  split
  · cases bs
    simp [ByteArray.set, ByteArray.size]
  · rfl

/-- A source text and a view of the same byte length. -/
structure Overlay where
  source : ByteArray
  view : ByteArray
  size_view : view.size = source.size

namespace Overlay

/-- A text with nothing masked. -/
def ofString (s : String) : Overlay := ⟨s.toUTF8, s.toUTF8, rfl⟩

/-- The byte length of the text. -/
def size (t : Overlay) : Nat := t.source.size

/-- Whether the text is empty. -/
def isEmpty (t : Overlay) : Bool := t.source.size == 0

/-- The source as text. -/
def sourceText (t : Overlay) : String := Utf8.decode t.source

/-- The view as text. -/
def viewText (t : Overlay) : String := Utf8.decode t.view

/-- The nearest character boundary of the source at or below `i`. -/
def boundaryBelow (bs : ByteArray) : Nat → Nat
  | 0 => 0
  | i + 1 => if Utf8.isBoundary bs (i + 1) then i + 1 else boundaryBelow bs i

/-- The nearest character boundary of the source at or above `i`, for `i` up to the end. -/
def boundaryAbove (bs : ByteArray) (i : Nat) : Nat :=
  if bs.size ≤ i then i
  else if Utf8.isBoundary bs i then i
  else boundaryAbove bs (i + 1)
termination_by bs.size - i

/-- A range clamped to the text and widened outwards to character boundaries. -/
def widen (t : Overlay) (start stop : Nat) : Nat × Nat :=
  let len := t.source.size
  let start := min start len
  let stop := max start (min stop len)
  (boundaryBelow t.source start, boundaryAbove t.source stop)

/-- Overwrites each non-blank character of the view from offset `i` up to `stop` with
copies of `fill`, one per byte. The fuel counts bytes. -/
def fillFrom (fill : UInt8) (stop : Nat) : Nat → Nat → ByteArray → ByteArray
  | 0, _, view => view
  | fuel + 1, i, view =>
    if i < stop then
      match Utf8.decodeAt view i with
      | .char c w =>
        if Text.isBlank c then fillFrom fill stop fuel (i + w) view
        else fillFrom fill stop fuel (i + w) (fillBytes fill i w view)
      | .invalid w => fillFrom fill stop fuel (i + w) (fillBytes fill i w view)
    else view
where
  /-- Writes `fill` into the `w` bytes from offset `i`. -/
  fillBytes (fill : UInt8) (i : Nat) : Nat → ByteArray → ByteArray
    | 0, view => view
    | w + 1, view => fillBytes fill (i + 1) w (setByte view i fill)

theorem size_fillBytes (fill : UInt8) (i w : Nat) (view : ByteArray) :
    (fillFrom.fillBytes fill i w view).size = view.size := by
  induction w generalizing i view with
  | zero => rfl
  | succ w ih => simp only [fillFrom.fillBytes, ih, size_setByte]

theorem size_fillFrom (fill : UInt8) (stop fuel i : Nat) (view : ByteArray) :
    (fillFrom fill stop fuel i view).size = view.size := by
  induction fuel generalizing i view with
  | zero => rfl
  | succ fuel ih =>
    unfold fillFrom
    split
    · split
      · split
        · exact ih _ _
        · rw [ih, size_fillBytes]
      · rw [ih, size_fillBytes]
    · rfl

/-- Masks the range with `fill`: each non-blank character becomes copies of `fill`. -/
def fill (t : Overlay) (start stop : Nat) (fill : UInt8) : Overlay :=
  let (a, b) := t.widen start stop
  ⟨t.source, fillFrom fill b (b - a) a t.view, by rw [size_fillFrom]; exact t.size_view⟩

/-- Masks the range with the mask byte. -/
def mask (t : Overlay) (start stop : Nat) : Overlay := t.fill start stop maskByte

/-- Masks the range with a character, which must take one byte: any other character masks
with the mask byte. This is what an optimised build of the program does; a debug build stops
at its assertion on such a character instead, and no caller passes one. -/
def maskWith (t : Overlay) (start stop : Nat) (c : Char) : Overlay :=
  t.fill start stop (if c.toNat < 128 then c.toNat.toUInt8 else maskByte)

/-- The matches of a pattern in the view, in order and without overlap. -/
def findAll (t : Overlay) (prog : Program) : List Match := prog.findAll t.view

/-- The first match at offset `pos` or later, none past the end. -/
def findAt (t : Overlay) (prog : Program) (pos : Nat) : Option Match :=
  if t.view.size < pos then none else prog.searchAt t.view pos

/-- The first match in the view. -/
def find (t : Overlay) (prog : Program) : Option Match := t.findAt prog 0

/-- Masks every nonempty match of the pattern with `fill`; tells whether there was one. -/
def maskAllWithByte (t : Overlay) (prog : Program) (fillByte : UInt8) : Overlay × Bool :=
  let ranges := (t.findAll prog).filterMap fun m =>
    if m.start < m.stop then some (m.start, m.stop) else none
  (ranges.foldl (fun t (a, b) => t.fill a b fillByte) t, !ranges.isEmpty)

/-- Masks every nonempty match of the pattern; tells whether there was one. -/
def maskAll (t : Overlay) (prog : Program) : Overlay × Bool := t.maskAllWithByte prog maskByte

/-- Masks every nonempty match of the pattern with a one-byte character (any other
character masks with the mask byte); tells whether there was one. -/
def maskAllWith (t : Overlay) (prog : Program) (c : Char) : Overlay × Bool :=
  t.maskAllWithByte prog (if c.toNat < 128 then c.toNat.toUInt8 else maskByte)

/-- Whether the view of the range still holds a character that is neither masked nor
blank. -/
def hasUnmasked (t : Overlay) (start stop : Nat) : Bool :=
  let (a, b) := t.widen start stop
  (Utf8.slice t.view a b).toList.any fun c => c != Char.ofNat 0x1a && !Text.isBlank c

/-- Masks the matches of a pattern again and again, for patterns that peel nested brackets
one layer at a time. A pass whose matches all lie in masked text ends the peeling; each
further pass masks at least one unmasked character, so the byte length bounds the passes. -/
def maskRepeatedly (t : Overlay) (prog : Program) : Overlay :=
  go (t.size + 1) t
where
  go : Nat → Overlay → Overlay
    | 0, t => t
    | fuel + 1, t =>
      let (t, changed) := t.maskAll prog
      if changed && (t.findAll prog).any (fun m => t.hasUnmasked m.start m.stop) then go fuel t
      else t

/-- The source text of a range. -/
def sourceSlice (t : Overlay) (start stop : Nat) : String :=
  let (a, b) := t.widen start stop
  Utf8.slice t.source a b

/-- The view text of a range. -/
def viewSlice (t : Overlay) (start stop : Nat) : String :=
  let (a, b) := t.widen start stop
  Utf8.slice t.view a b

/-- The part of the text in a range, with its masking. -/
def slice (t : Overlay) (start stop : Nat) : Overlay :=
  let (a, b) := t.widen start stop
  ⟨t.source.extract a b, t.view.extract a b, by
    simp only [ByteArray.size_extract, t.size_view]⟩

/-- The offset of the character after the one at `pos` in the view, or `pos + 1` where no
character starts at `pos`. Offsets are natural numbers, so `pos + 1` never overflows; with
machine-word offsets it would only at the largest word, past any text. -/
def nextChar (t : Overlay) (pos : Nat) : Nat :=
  if pos < t.view.size && Utf8.isBoundary t.view pos then
    pos + (Utf8.decodeAt t.view pos).width
  else pos + 1

/-- The number of line feeds among the first `n` bytes. -/
def countNewlines (bs : ByteArray) (n : Nat) : Nat :=
  ((bs.extract 0 n).toList.filter (· == 10)).length

/-- The line, counted from one, that holds byte offset `pos` of the source. -/
def lineOf (t : Overlay) (pos : Nat) : Nat :=
  countNewlines t.source (min pos t.source.size) + 1

/-- The source text of the whole match. -/
def matchSource (t : Overlay) (m : Match) : String := t.sourceSlice m.start m.stop

/-- The view text of the whole match. -/
def matchView (t : Overlay) (m : Match) : String := t.viewSlice m.start m.stop

/-- The source text of a named group. -/
def groupSource (t : Overlay) (m : Match) (name : String) : Option String :=
  (m.group? name).map fun (a, b) => t.sourceSlice a b

/-- The view text of a named group. -/
def groupView (t : Overlay) (m : Match) (name : String) : Option String :=
  (m.group? name).map fun (a, b) => Utf8.slice t.view a b

/-- A named group as a text of its own, with its masking. -/
def groupText (t : Overlay) (m : Match) (name : String) : Option Overlay :=
  (m.group? name).map fun (a, b) => t.slice a b

/-- The source texts of all matches of a pattern. -/
def findAllSource (t : Overlay) (prog : Program) : List String :=
  (t.findAll prog).map t.matchSource

end Overlay

end Lineage
