import Lineage.Text.Quote
import Lineage.Number.Double
/-!
What an untyped plain scalar reads as.

A plain scalar that is read where no particular type is asked for is taken, in this order,
as: the empty value (empty, `~`, `null`, `Null`, `NULL`); a boolean (`true`, `True`, `TRUE`
and the same for false); an integer that fits 64 bits unsigned, then 64 bits signed, then
128 bits unsigned and signed (with `0x`, `0o` and `0b` prefixes allowed, and an optional
sign, but no leading zero on a decimal); a finite floating-point number (with `.inf` and
`.nan` spelled the YAML way); and otherwise text.

This decides how a value of the wrong type is described in a message: "integer `5`",
"floating point `1.5`", "string \"yes\"", and so on. A float is the double nearest to
the number, shown in plain decimal notation with the fewest digits that read back as it and
always with a decimal point. A scalar tagged with a core-schema type (`!!bool`, `!!int`,
`!!float`, `!!null`) is read as that type whatever its style, and one of another tag or a
quoted style is text.
-/
namespace Lineage.Yaml

/-- How an untyped plain scalar reads. -/
inductive Untyped where
  | unit
  | bool (b : Bool)
  | unsigned (n : Nat)
  | signed (n : Int)
  | wideUnsigned (n : Nat)
  | wideSigned (n : Int)
  | float (shown : String)
  | text (s : String)
  deriving Repr, Inhabited, BEq

/-- The spellings of the empty value. -/
def isNullText (s : String) : Bool :=
  s == "~" || s == "null" || s == "Null" || s == "NULL"

/-- The spellings of the booleans. -/
def parseBoolText (s : String) : Option Bool :=
  if s == "true" || s == "True" || s == "TRUE" then some true
  else if s == "false" || s == "False" || s == "FALSE" then some false
  else none

/-- The value of a non-empty run of digits in a radix. -/
def digitsValue (radix : Nat) (cs : List Char) : Option Nat :=
  if cs.isEmpty then none
  else cs.foldl (fun acc c =>
    acc.bind fun v =>
      let d := if '0' ≤ c && c ≤ '9' then c.toNat - 48
        else if 'a' ≤ c && c ≤ 'z' then c.toNat - 87
        else if 'A' ≤ c && c ≤ 'Z' then c.toNat - 55
        else radix
      if d < radix then some (v * radix + d) else none) (some 0)

/-- A decimal number with an optional sign. -/
def signedDecimal (cs : List Char) : Option Int :=
  match cs with
  | '-' :: rest => (digitsValue 10 rest).map fun v => -(v : Int)
  | '+' :: rest => (digitsValue 10 rest).map fun v => (v : Int)
  | _ => (digitsValue 10 cs).map fun v => (v : Int)

/-- Whether a text is a leading zero followed by more digits (after an optional sign); YAML
reads such a text as a string, not a number. -/
def digitsButNotNumber (s : String) : Bool :=
  let cs := s.toList
  let cs := match cs with
    | '-' :: rest => rest
    | '+' :: rest => rest
    | _ => cs
  cs.length > 1 && cs.head? == some '0' && cs.tail.all fun c => '0' ≤ c && c ≤ '9'

/-- The radix prefixes. -/
def radixPrefixes : List (String × Nat) := [("0x", 16), ("0o", 8), ("0b", 2)]

/-- Reads an unsigned integer no larger than `bound`. -/
def parseUnsigned (s : String) (bound : Nat) : Option Nat :=
  let cs := s.toList
  let unpositive := match cs with
    | '+' :: rest => rest
    | _ => cs
  let fits := fun (v : Nat) => if v ≤ bound then some v else none
  let rec prefixed : List (String × Nat) → Option (Option Nat)
    | [] => none
    | (pfx, radix) :: more =>
      if pfx.toList.isPrefixOf unpositive then
        let rest := unpositive.drop 2
        if rest.head? == some '+' || rest.head? == some '-' then some none
        else match (digitsValue radix rest).bind fits with
          | some v => some (some v)
          | none => prefixed more
      else prefixed more
  match prefixed radixPrefixes with
  | some r => r
  | none =>
    if unpositive.head? == some '+' || unpositive.head? == some '-' then none
    else if digitsButNotNumber s then none
    else (digitsValue 10 unpositive).bind fits

/-- Reads a signed integer in `[lo, hi]`; prefixed forms only for negative numbers. -/
def parseSigned (s : String) (lo hi : Int) : Option Int :=
  let cs := s.toList
  let fits := fun (v : Int) => if lo ≤ v && v ≤ hi then some v else none
  let rec prefixed : List (String × Nat) → Option Int
    | [] => none
    | (pfx, radix) :: more =>
      if ('-' :: pfx.toList).isPrefixOf cs then
        match (digitsValue radix (cs.drop 3)).bind fun v => fits (-(v : Int)) with
        | some v => some v
        | none => prefixed more
      else prefixed more
  match prefixed radixPrefixes with
  | some v => some v
  | none => if digitsButNotNumber s then none else (signedDecimal cs).bind fits

/-- A decimal number: its significant digits (no leading or trailing zeros), where the
decimal point stands relative to them, and whether it is negative. The value is
`0.digits × 10 ^ point`; zero has no digits. -/
structure Decimal where
  digits : List Char
  point : Int
  negative : Bool
  deriving Repr, Inhabited

/-- Reads the digits and exponent of a number in the floating-point syntax: digits with an
optional point (at least one digit on some side), then an optional exponent. -/
def parseDecimal (cs : List Char) : Option Decimal :=
  let (negative, cs) := match cs with
    | '-' :: rest => (true, rest)
    | '+' :: rest => (false, rest)
    | _ => (false, cs)
  let isDigit := fun (c : Char) => '0' ≤ c && c ≤ '9'
  let whole := cs.takeWhile isDigit
  let cs := cs.drop whole.length
  let (frac, cs) := match cs with
    | '.' :: rest => (rest.takeWhile isDigit, rest.drop (rest.takeWhile isDigit).length)
    | _ => ([], cs)
  if whole.isEmpty && frac.isEmpty then none
  else
    let expo : Option Int := match cs with
      | [] => some 0
      | e :: rest =>
        if e == 'e' || e == 'E' then signedDecimal rest else none
    expo.bind fun ex =>
      let all := whole ++ frac
      let lead := (all.takeWhile (· == '0')).length
      let sig := all.drop lead
      let sig := (sig.reverse.dropWhile (· == '0')).reverse
      let point : Int := (whole.length : Int) - lead + ex
      some ⟨sig, point, negative⟩

/-- The decimal with the shortest digits that read back as the double nearest to `d`, or
`none` when that double is infinite. -/
def Decimal.roundTrip (d : Decimal) : Option Decimal :=
  let n := (digitsValue 10 d.digits).getD 0
  (Double.ofDecimal n (d.point - d.digits.length)).map fun v =>
    let (c, j) := v.shortest
    if c == 0 then ⟨[], 0, d.negative⟩
    else
      let ds := Nat.toDigits 10 c
      ⟨(ds.reverse.dropWhile (· == '0')).reverse, (ds.length : Int) + j, d.negative⟩

/-- A double's decimal text without an exponent, with ".0" added when there is no point. -/
def Decimal.show (d : Decimal) : String :=
  let body :=
    if d.digits.isEmpty then "0"
    else if d.point ≤ 0 then
      "0." ++ String.ofList (List.replicate d.point.natAbs '0') ++ String.ofList d.digits
    else if d.point ≥ d.digits.length then
      String.ofList d.digits ++ String.ofList (List.replicate (d.point.toNat - d.digits.length) '0')
    else
      String.ofList (d.digits.take d.point.toNat) ++ "." ++ String.ofList (d.digits.drop d.point.toNat)
  let body := if body.contains '.' then body else body ++ ".0"
  (if d.negative then "-" else "") ++ body

/-- Reads a finite float and shows it; the YAML infinities and NaN are shown as such. -/
def parseFloat (s : String) : Option String :=
  let cs := s.toList
  let unpositive := match cs with
    | '+' :: rest => rest
    | _ => cs
  let signed := cs.head? == some '+' && (unpositive.head? == some '+' || unpositive.head? == some '-')
  let u := String.ofList unpositive
  if signed then none
  else if u == ".inf" || u == ".Inf" || u == ".INF" then some "inf"
  else if s == "-.inf" || s == "-.Inf" || s == "-.INF" then some "-inf"
  else if s == ".nan" || s == ".NaN" || s == ".NAN" then some "NaN"
  else match parseDecimal unpositive with
    | some d => d.roundTrip.map Decimal.show
    | none => none

/-- Reads an integer: an unsigned one that fits 64 bits, a signed one that fits 64 bits,
then the same in 128 bits. -/
def classifyInt (s : String) : Option Untyped :=
  let u64 := Nat.pow 2 64 - 1
  let u128 := Nat.pow 2 128 - 1
  match parseUnsigned s u64 with
  | some n => some (.unsigned n)
  | none =>
    match parseSigned s (-Int.pow 2 63) (Int.pow 2 63 - 1) with
    | some n => some (.signed n)
    | none =>
      match parseUnsigned s u128 with
      | some n => some (.wideUnsigned n)
      | none => (parseSigned s (-Int.pow 2 127) (Int.pow 2 127 - 1)).map .wideSigned

/-- Reads an untyped plain scalar. -/
def classify (s : String) : Untyped :=
  if s.isEmpty || isNullText s then .unit
  else match parseBoolText s with
  | some b => .bool b
  | none =>
    match classifyInt s with
    | some u => u
    | none =>
      if digitsButNotNumber s then .text s
      else match parseFloat s with
        | some shown => .float shown
        | none => .text s

/-- The tags of the core schema that fix how a scalar reads. -/
def boolTag : String := "tag:yaml.org,2002:bool"

/-- The tag of integers. -/
def intTag : String := "tag:yaml.org,2002:int"

/-- The tag of floats. -/
def floatTag : String := "tag:yaml.org,2002:float"

/-- The tag of the empty value. -/
def nullTag : String := "tag:yaml.org,2002:null"

/-- The message for a text that is not a value of the kind wanted. -/
def invalidValue (text expected : String) : String :=
  "invalid value: string " ++ Text.debugQuote text ++ ", expected " ++ expected

/-- How a scalar reads as a value of no particular type. A core-schema tag for booleans,
integers, floats or the empty value reads the text as that kind, and a text that is not one
gives the message saying so. A plain scalar with no tag, or with a local tag (starting with
`!`), reads untyped; any other scalar is text. -/
def classifyTagged (text : String) (plain : Bool) (tag : Option String) : Except String Untyped :=
  match tag with
  | none => .ok (if plain then classify text else .text text)
  | some t =>
    if t == boolTag then
      match parseBoolText text with
      | some b => .ok (.bool b)
      | none => .error (invalidValue text "a boolean")
    else if t == intTag then
      match classifyInt text with
      | some u => .ok u
      | none => .error (invalidValue text "an integer")
    else if t == floatTag then
      match parseFloat text with
      | some shown => .ok (.float shown)
      | none => .error (invalidValue text "a float")
    else if t == nullTag then
      if isNullText text then .ok .unit else .error (invalidValue text "null")
    else .ok (if plain && t.startsWith "!" then classify text else .text text)

/-- How a value is described when it has the wrong type. -/
def Untyped.describe : Untyped → String
  | .unit => "unit value"
  | .bool b => "boolean `" ++ toString b ++ "`"
  | .unsigned n => "integer `" ++ toString n ++ "`"
  | .signed n => "integer `" ++ toString n ++ "`"
  | .wideUnsigned n => "integer `" ++ toString n ++ "` as u128"
  | .wideSigned n => "integer `" ++ toString n ++ "` as i128"
  | .float shown => "floating point `" ++ shown ++ "`"
  | .text s => "string " ++ Text.debugQuote s

end Lineage.Yaml
