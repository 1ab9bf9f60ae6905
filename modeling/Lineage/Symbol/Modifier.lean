import Lineage.Text.Trim
/-!
Declaration modifiers.

Known keywords and decorators become their own constructors; any other text (an
annotation, an uncommon keyword, a decorator) is kept as written in `Modifier.custom`.
Modifiers are kept as sets, listed in the order of `Modifier.compare`: the four access
levels from widest to narrowest, then static, class method, abstract, default, final,
override, and last the custom texts in text order.
-/
namespace Lineage

/-- A modifier of a declaration. -/
inductive Modifier where
  | publicAccess
  | protectedAccess
  | packageAccess
  | privateAccess
  | static
  | classMethod
  | abstract
  | default
  | final
  | override
  | custom (text : String)
  deriving Repr, DecidableEq, Inhabited

namespace Modifier

/-- The keyword of a modifier, or its text when custom. -/
def text : Modifier → String
  | publicAccess => "public"
  | protectedAccess => "protected"
  | packageAccess => "package-private"
  | privateAccess => "private"
  | static => "static"
  | classMethod => "classmethod"
  | abstract => "abstract"
  | default => "default"
  | final => "final"
  | override => "override"
  | custom t => t

/-- The modifier a keyword names, after trimming blanks; other text is custom. -/
def named (s : String) : Modifier :=
  let t := Text.trim s
  match t with
  | "abstract" => abstract
  | "classmethod" => classMethod
  | "default" => default
  | "final" => final
  | "override" => override
  | "package-private" => packageAccess
  | "private" => privateAccess
  | "protected" => protectedAccess
  | "public" => publicAccess
  | "static" => static
  | _ => custom t

/-- Whether the modifier states an access level. -/
def isAccess : Modifier → Bool
  | publicAccess | protectedAccess | packageAccess | privateAccess => true
  | _ => false

/-- Whether the modifier is custom text. -/
def isCustom : Modifier → Bool
  | custom _ => true
  | _ => false

/-- The place of a modifier's kind in the listing order. -/
def rank : Modifier → Nat
  | publicAccess => 0
  | protectedAccess => 1
  | packageAccess => 2
  | privateAccess => 3
  | static => 4
  | classMethod => 5
  | abstract => 6
  | default => 7
  | final => 8
  | override => 9
  | custom _ => 10

/-- The listing order: by kind, and custom modifiers by their text. -/
def compare (a b : Modifier) : Ordering :=
  match a, b with
  | custom s, custom t => Ord.compare s t
  | _, _ => Ord.compare a.rank b.rank

end Modifier

/-- A set of modifiers, listed without repeats in the order of `Modifier.compare`. -/
structure Modifiers where
  toList : List Modifier
  deriving Repr, DecidableEq, Inhabited

namespace Modifiers

/-- No modifiers. -/
def empty : Modifiers := ⟨[]⟩

/-- Inserts a modifier at its place in the order, unless it is there already. -/
def insertInto (m : Modifier) : List Modifier → List Modifier
  | [] => [m]
  | x :: xs =>
    match Modifier.compare m x with
    | .lt => m :: x :: xs
    | .eq => x :: xs
    | .gt => x :: insertInto m xs

/-- The set with one more modifier. -/
def insert (s : Modifiers) (m : Modifier) : Modifiers := ⟨insertInto m s.toList⟩

/-- The set of the given modifiers. -/
def ofList (ms : List Modifier) : Modifiers := ms.foldl insert empty

/-- Whether the set holds a modifier. -/
def contains (s : Modifiers) (m : Modifier) : Bool := s.toList.contains m

/-- The set without a modifier. -/
def erase (s : Modifiers) (m : Modifier) : Modifiers := ⟨s.toList.filter (· != m)⟩

/-- Whether the set holds an access level. -/
def hasAccess (s : Modifiers) : Bool := s.toList.any Modifier.isAccess

/-- The texts of the modifiers, in order. -/
def texts (s : Modifiers) : List String := s.toList.map Modifier.text

end Modifiers

end Lineage
