/-!
JSON values and their indented text.

Objects keep their keys in the order given. The indented text puts each array element and
each object member on a line of its own, indented by two spaces per level, with `": "`
after keys; empty arrays and objects are written `[]` and `{}`. In strings, the quote and
the backslash are escaped, control characters are written `\b`, `\t`, `\n`, `\f`, `\r` or
as `\u00xx` with lowercase hex digits, and all other characters are written as they are.
-/
namespace Lineage

/-- A JSON value whose numbers are natural numbers. -/
inductive JsonValue where
  | null
  | bool (b : Bool)
  | num (n : Nat)
  | str (s : String)
  | arr (xs : List JsonValue)
  | obj (kvs : List (String × JsonValue))
  deriving Repr, Inhabited

namespace JsonValue

/-- A hex digit in lowercase. -/
def hexDigit (n : Nat) : Char :=
  if n < 10 then Char.ofNat (48 + n) else Char.ofNat (87 + n)

/-- One character as it stands inside a JSON string. -/
def escapeChar (c : Char) : String :=
  match c with
  | '"' => "\\\""
  | '\\' => "\\\\"
  | '\n' => "\\n"
  | '\r' => "\\r"
  | '\t' => "\\t"
  | _ =>
    if c.toNat == 8 then "\\b"
    else if c.toNat == 12 then "\\f"
    else if c.toNat < 32 then
      String.ofList ['\\', 'u', '0', '0', hexDigit (c.toNat / 16), hexDigit (c.toNat % 16)]
    else c.toString

/-- A string as a JSON string literal. -/
def quote (s : String) : String := "\"" ++ String.join (s.toList.map escapeChar) ++ "\""

mutual
/-- The indented text of a value whose first line starts at nesting `depth`. -/
def render (depth : Nat) : JsonValue → String
  | null => "null"
  | bool b => if b then "true" else "false"
  | num n => toString n
  | str s => quote s
  | arr [] => "[]"
  | arr (x :: xs) =>
    "[\n" ++ ",\n".intercalate (renderItems (depth + 1) (x :: xs)) ++
      "\n" ++ "".pushn ' ' (2 * depth) ++ "]"
  | obj [] => "\x7b\x7d"
  | obj (kv :: kvs) =>
    "\x7b\n" ++ ",\n".intercalate (renderMembers (depth + 1) (kv :: kvs)) ++
      "\n" ++ "".pushn ' ' (2 * depth) ++ "\x7d"

/-- The lines of array elements at nesting `depth`. -/
def renderItems (depth : Nat) : List JsonValue → List String
  | [] => []
  | x :: xs => ("".pushn ' ' (2 * depth) ++ render depth x) :: renderItems depth xs

/-- The lines of object members at nesting `depth`. -/
def renderMembers (depth : Nat) : List (String × JsonValue) → List String
  | [] => []
  | (k, v) :: kvs =>
    ("".pushn ' ' (2 * depth) ++ quote k ++ ": " ++ render depth v) :: renderMembers depth kvs
end

/-- The indented text of a value. -/
def pretty (v : JsonValue) : String := render 0 v

/-- A string, or null. -/
def ofOption (s : Option String) : JsonValue :=
  match s with
  | some t => str t
  | none => null

/-- A list of strings. -/
def strs (xs : List String) : JsonValue := arr (xs.map str)

end JsonValue

end Lineage
