/-!
UTF-8 text held as bytes.

Scanned text is addressed by byte offsets, so the scanners keep it as a `ByteArray` and
read characters out of it with `Utf8.decodeAt`. Reading follows the UTF-8 grammar of
RFC 3629: overlong forms, surrogates and values past U+10FFFF are refused. Where bytes are
not UTF-8, each maximal prefix of a well-formed sequence stands for one replacement
character U+FFFD (`Utf8.decode`), the usual lossy reading.
-/
namespace Lineage.Utf8

/-- What the bytes at an offset hold: a character and the number of bytes it takes, or an
ill-formed sequence of the given length. -/
inductive Item where
  | char (c : Char) (width : Nat)
  | invalid (width : Nat)
  deriving Repr, DecidableEq

/-- The number of bytes an item takes; always one to four. -/
def Item.width : Item → Nat
  | .char _ w => w
  | .invalid w => w

/-- The byte at an offset as a number, or `0` past the end (never a continuation byte). -/
def byteAt (bs : ByteArray) (i : Nat) : Nat :=
  if h : i < bs.size then bs[i].toNat else 0

/-- A continuation byte has the bit pattern `10xxxxxx`. -/
def isCont (b : Nat) : Bool := 0x80 ≤ b && b ≤ 0xBF

/-- Whether an offset starts a character: the start, the end, or an offset whose byte is
not a continuation byte. Offsets past the end are no boundary. -/
def isBoundary (bs : ByteArray) (i : Nat) : Bool :=
  i == 0 || i == bs.size || (i < bs.size && !isCont (byteAt bs i))

/-- The item that starts at offset `i`, read by the well-formed byte sequences of UTF-8.
A lead byte with a wrong second byte gives an ill-formed item of one byte, and so on: the
ill-formed item is the longest prefix of some well-formed sequence. -/
def decodeAt (bs : ByteArray) (i : Nat) : Item :=
  let b0 := byteAt bs i
  if b0 < 0x80 then .char (Char.ofNat b0) 1
  else if 0xC2 ≤ b0 && b0 ≤ 0xDF then
    let b1 := byteAt bs (i + 1)
    if isCont b1 then .char (Char.ofNat ((b0 - 0xC0) * 64 + (b1 - 0x80))) 2 else .invalid 1
  else if 0xE0 ≤ b0 && b0 ≤ 0xEF then
    let b1 := byteAt bs (i + 1)
    let lo := if b0 == 0xE0 then 0xA0 else 0x80
    let hi := if b0 == 0xED then 0x9F else 0xBF
    if !(lo ≤ b1 && b1 ≤ hi) then .invalid 1
    else
      let b2 := byteAt bs (i + 2)
      if !isCont b2 then .invalid 2
      else .char (Char.ofNat ((b0 - 0xE0) * 4096 + (b1 - 0x80) * 64 + (b2 - 0x80))) 3
  else if 0xF0 ≤ b0 && b0 ≤ 0xF4 then
    let b1 := byteAt bs (i + 1)
    let lo := if b0 == 0xF0 then 0x90 else 0x80
    let hi := if b0 == 0xF4 then 0x8F else 0xBF
    if !(lo ≤ b1 && b1 ≤ hi) then .invalid 1
    else
      let b2 := byteAt bs (i + 2)
      if !isCont b2 then .invalid 2
      else
        let b3 := byteAt bs (i + 3)
        if !isCont b3 then .invalid 3
        else .char (Char.ofNat ((b0 - 0xF0) * 262144 + (b1 - 0x80) * 4096
          + (b2 - 0x80) * 64 + (b3 - 0x80))) 4
  else .invalid 1

/-- The character at offset `i`, if a well-formed one starts there and `i` is inside. -/
def charAt? (bs : ByteArray) (i : Nat) : Option (Char × Nat) :=
  if i < bs.size then
    match decodeAt bs i with
    | .char c w => some (c, w)
    | .invalid _ => none
  else none

/-- The offset of the character that ends at `i`: the nearest boundary below `i`, at most
four bytes back. -/
def prevStart (bs : ByteArray) (i : Nat) : Nat :=
  if i == 0 then 0
  else if !isCont (byteAt bs (i - 1)) || i < 2 then i - 1
  else if !isCont (byteAt bs (i - 2)) || i < 3 then i - 2
  else if !isCont (byteAt bs (i - 3)) || i < 4 then i - 3
  else i - 4

/-- The character that ends at offset `i`, if any. -/
def charBefore? (bs : ByteArray) (i : Nat) : Option Char :=
  if i == 0 then none
  else
    let s := prevStart bs i
    match charAt? bs s with
    | some (c, w) => if s + w == i then some c else none
    | none => none

/-- Reads the bytes from `i` to `stop` into characters, each ill-formed item becoming
U+FFFD. The fuel bounds the number of items and is the number of bytes. -/
def decodeFrom (bs : ByteArray) (stop : Nat) : Nat → Nat → String → String
  | 0, _, acc => acc
  | fuel + 1, i, acc =>
    if i < stop then
      match decodeAt bs i with
      | .char c w => decodeFrom bs stop fuel (i + w) (acc.push c)
      | .invalid w => decodeFrom bs stop fuel (i + w) (acc.push '�')
    else acc

/-- The text of the bytes from `start` to `stop`, read lossily. -/
def slice (bs : ByteArray) (start stop : Nat) : String :=
  decodeFrom bs (min stop bs.size) (stop - start) start ""

/-- The text of all the bytes, read lossily: each ill-formed item becomes U+FFFD. -/
def decode (bs : ByteArray) : String :=
  slice bs 0 bs.size

/-- The number of bytes of a character's UTF-8 form. -/
def width (c : Char) : Nat := c.utf8Size

end Lineage.Utf8
