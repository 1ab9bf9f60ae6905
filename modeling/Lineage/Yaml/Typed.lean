import Lineage.Yaml.Document
import Lineage.Yaml.Scalar
/-!
Reading typed values from a loaded document.

Each reader takes the place of a value in the document's items and gives the value with the
place after it. An alias is read by reading the node it points at. Readers are given a
path naming the value (`ascii`, `excluded_paths[0]`), used in messages.

Errors come in two kinds. A type error ("invalid type: ..., expected ...") is a message that
gets placed: the reader that meets it adds the position of the value and the path, and an
error already placed keeps its first place. Other errors (a syntax error met by running
past the items, the end of the input) are shown as they are. Two messages are left for the
reader of the whole document to place: a value tagged as empty that is not spelled so, met
while asking whether an optional value is present, and a variant tag naming no variant.

Tags matter only where the readers below say so: a boolean is read from a plain scalar
whatever its tag or from a literal block tagged as a boolean, an optional value is absent for a null-tagged null, and a tag starting
with `!` on the value of a choice names the variant. In messages a scalar is described as
its tag says (see `classifyTagged`).

The fuel of each reader bounds the nesting of aliases; the items of a document are enough.
-/
namespace Lineage.Yaml

/-- An error met while reading a value. -/
inductive DecodeError where
  | message (text : String) (place : Option (Mark × String))
  | fixed (text : String)
  deriving Repr, Inhabited

/-- Places an error at a value, unless it is placed already. -/
def DecodeError.fix (e : DecodeError) (mark : Mark) (path : String) : DecodeError :=
  match e with
  | .message text none => .message text (some (mark, path))
  | e => e

/-- The error as a message: the path (unless it is the whole document), the text, and the
position (unless it is the very start). -/
def DecodeError.render : DecodeError → String
  | .message text none => text
  | .message text (some (m, path)) =>
    (if path == "." then "" else path ++ ": ") ++ text ++ (if m.isSet then " at " ++ m.render else "")
  | .fixed text => text

/-- The item at a place, or the error that cut the document short. -/
def Document.item (d : Document) (pos : Nat) : Except DecodeError (Item × Mark) :=
  (d.get pos).mapError DecodeError.fixed

/-- The error for an item of the wrong kind: its description, or for a scalar whose tag
its text does not fit, the message saying so. -/
def invalidType (item : Item) (expected : String) : DecodeError :=
  let wrong (shown : String) : DecodeError :=
    .message ("invalid type: " ++ shown ++ ", expected " ++ expected) none
  match item with
  | .scalar text style tag =>
    match classifyTagged text (style == .plain) tag with
    | .ok u => wrong u.describe
    | .error msg => .message msg none
  | .sequenceStart _ => wrong "sequence"
  | .mappingStart _ => wrong "map"
  | .void => .fixed "EOF while parsing a value"
  | _ => wrong "unit value"

/-- Reads a scalar as text; `expected` names what was wanted, for the message. -/
def readString (d : Document) (expected : String) :
    Nat → String → Nat → Except DecodeError (String × Nat)
  | 0, _, pos => .error (.fixed ("recursion limit exceeded at item " ++ toString pos))
  | fuel + 1, path, pos => do
    let (item, mark) ← d.item pos
    match item with
    | .scalar text _ _ => pure (text, pos + 1)
    | .alias target => do
      let (s, _) ← readString d expected fuel path target
      pure (s, pos + 1)
    | other => throw ((invalidType other expected).fix mark path)

/-- Whether a scalar may be read as a boolean: a plain one whatever its tag, or a literal
block tagged as a boolean. -/
def Item.mayBeBool : Item → Bool
  | .scalar _ .plain _ => true
  | .scalar _ .literal (some t) => t == boolTag
  | _ => false

/-- Reads a boolean: a scalar that may be one, spelled as one. -/
def readBool (d : Document) : Nat → String → Nat → Except DecodeError (Bool × Nat)
  | 0, _, pos => .error (.fixed ("recursion limit exceeded at item " ++ toString pos))
  | fuel + 1, path, pos => do
    let (item, mark) ← d.item pos
    let wrong := (invalidType item "a boolean").fix mark path
    match item with
    | .alias target => do
      let (b, _) ← readBool d fuel path target
      pure (b, pos + 1)
    | .scalar text _ _ =>
      match (if item.mayBeBool then parseBoolText text else none) with
      | some b => pure (b, pos + 1)
      | none => throw wrong
    | _ => throw wrong

/-- Whether a value is present: anything but a plain empty value. A plain scalar is empty
when it has no tag and is blank or spelled as the empty value, or when it is tagged as the
empty value; with that tag it must be spelled as the empty value. -/
def Item.isPresent : Item → Except DecodeError Bool
  | .scalar text .plain none => .ok !(text.isEmpty || isNullText text)
  | .scalar text .plain (some t) =>
    if t != nullTag then .ok true
    else if isNullText text then .ok false
    else .error (.message (invalidValue text "null") none)
  | .void => .ok false
  | _ => .ok true

/-- Reads an optional value: absent for an empty value, else read by `inner`. -/
def readOption {α : Type} (d : Document)
    (inner : Nat → String → Nat → Except DecodeError (α × Nat)) :
    Nat → String → Nat → Except DecodeError (Option α × Nat)
  | 0, _, pos => .error (.fixed ("recursion limit exceeded at item " ++ toString pos))
  | fuel + 1, path, pos => do
    let (item, _) ← d.item pos
    match item with
    | .alias target => do
      let (v, _) ← readOption d inner fuel path target
      pure (v, pos + 1)
    | _ =>
      if ← item.isPresent then do
        let (v, next) ← inner fuel path pos
        pure (some v, next)
      else pure (none, pos + 1)

/-- Reads the elements of a sequence up to its end, the `i`-th with the path `path[i]`. -/
def readElements {α : Type} (d : Document)
    (elem : Nat → String → Nat → Except DecodeError (α × Nat)) (fuel : Nat) (path : String) :
    Nat → Nat → List α → Nat → Except DecodeError (List α × Nat)
  | 0, _, acc, pos => pure (acc.reverse, pos)
  | n + 1, i, acc, pos => do
    let (item, _) ← d.item pos
    match item with
    | .sequenceEnd => pure (acc.reverse, pos + 1)
    | .void => pure (acc.reverse, pos)
    | _ => do
      let (v, next) ← elem fuel (path ++ "[" ++ toString i ++ "]") pos
      readElements d elem fuel path n (i + 1) (v :: acc) next

/-- Reads a sequence; an empty value reads as the empty sequence. -/
def readSequence {α : Type} (d : Document)
    (elem : Nat → String → Nat → Except DecodeError (α × Nat)) :
    Nat → String → Nat → Except DecodeError (List α × Nat)
  | 0, _, pos => .error (.fixed ("recursion limit exceeded at item " ++ toString pos))
  | fuel + 1, path, pos => do
    let (item, mark) ← d.item pos
    match item with
    | .alias target => do
      let (v, _) ← readSequence d elem fuel path target
      pure (v, pos + 1)
    | .sequenceStart _ =>
      (readElements d elem fuel path (d.items.size + 1) 0 [] (pos + 1)).mapError
        fun e => e.fix mark path
    | .void => pure ([], pos + 1)
    | .scalar "" .plain _ => pure ([], pos + 1)
    | other => throw ((invalidType other "a sequence").fix mark path)

/-- How the names of the variants are listed in a message. -/
def variantList (names : List String) : String :=
  let quoted := names.map fun n => "`" ++ n ++ "`"
  match quoted with
  | [] => "there are no variants"
  | [a] => a
  | [a, b] => a ++ " or " ++ b
  | _ => "one of " ++ ", ".intercalate quoted

/-- The variant a tag names: the tag without its leading `!`, or `!` itself for the bare
tag. A tag not starting with `!` names none. -/
def variantTag : Option String → Option String
  | some t =>
    if t.startsWith "!" then some (if t == "!" then t else String.ofList (t.toList.drop 1))
    else none
  | none => none

/-- The error for a name that is not one of the variants. -/
def unknownVariant (names : List String) (name : String) : DecodeError :=
  let listed := if names.isEmpty then variantList names else "expected " ++ variantList names
  .message ("unknown variant `" ++ name ++ "`, " ++ listed) none

/-- Reads a variant without data. A tagged node names it by its tag and must hold the empty
value; a name that is no variant is not placed, as the node is not read. Otherwise a scalar
names it by its text, and a mapping or sequence is an error. -/
def readVariant (d : Document) (names : List String) :
    Nat → String → Nat → Except DecodeError (String × Nat)
  | 0, _, pos => .error (.fixed ("recursion limit exceeded at item " ++ toString pos))
  | fuel + 1, path, pos => do
    let (item, mark) ← d.item pos
    let placed (text : String) : DecodeError := (DecodeError.message text none).fix mark path
    let tag := match item with
      | .scalar _ _ t => t
      | .sequenceStart t => t
      | .mappingStart t => t
      | _ => none
    match variantTag tag with
    | some name =>
      if !names.contains name then throw (unknownVariant names name)
      else match item with
        | .scalar text style _ =>
          if style == .plain && (text.isEmpty || isNullText text) then pure (name, pos + 1)
          else throw (placed (invalidValue text "null"))
        | .sequenceStart _ => throw (placed "invalid type: sequence, expected unit")
        | _ => throw (placed "invalid type: map, expected unit")
    | none =>
      match item with
      | .alias target => do
        let (v, _) ← readVariant d names fuel path target
        pure (v, pos + 1)
      | .scalar text _ _ =>
        if names.contains text then pure (text, pos + 1)
        else throw ((unknownVariant names text).fix mark path)
      | .mappingStart _ => throw (placed "invalid type: map, expected a YAML tag starting with '!'")
      | .sequenceStart _ => throw (placed "invalid type: sequence, expected a YAML tag starting with '!'")
      | _ => throw (.fixed "EOF while parsing a value")

/-- Steps over a value of any shape. -/
def skipValue (d : Document) : Nat → Nat → Nat → Except DecodeError Nat
  | 0, _, pos => pure pos
  | n + 1, depth, pos => do
    let (item, _) ← d.item pos
    match item with
    | .sequenceStart _ => skipValue d n (depth + 1) (pos + 1)
    | .mappingStart _ => skipValue d n (depth + 1) (pos + 1)
    | .sequenceEnd => if depth ≤ 1 then pure (pos + 1) else skipValue d n (depth - 1) (pos + 1)
    | .mappingEnd => if depth ≤ 1 then pure (pos + 1) else skipValue d n (depth - 1) (pos + 1)
    | .void => pure (pos + 1)
    | _ => if depth == 0 then pure (pos + 1) else skipValue d n depth (pos + 1)

end Lineage.Yaml
