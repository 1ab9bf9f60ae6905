import Lineage.Text.Trim
/-!
Dotted names as written at their place of use.

`dottedParts` splits the text of a type or a module path into its name components: what
follows the first `[`, `(` or `<` (type arguments, array dimensions, call arguments) is
dropped, the rest is cut at each dot, each part is trimmed and empty parts are left out.

A `NameRef` is such a name together with the symbol in whose scope it was written; a
`TypeRef` is a name that refers to a type, with hints on what the type is for when it lies
outside the project. Two references are the same when scope and components agree (and,
for type references, the hints); the written text does not count.
-/
namespace Lineage

/-- Splits a list at every occurrence of a separator. -/
def splitAt (sep : Char) : List Char → List (List Char)
  | [] => [[]]
  | c :: cs =>
    if c = sep then [] :: splitAt sep cs
    else match splitAt sep cs with
      | [] => [[c]]
      | p :: ps => (c :: p) :: ps

/-- The name components of a written name; see the module comment. -/
def dottedParts (text : String) : List String :=
  let head := text.toList.takeWhile fun c => c != '[' && c != '(' && c != '<'
  ((splitAt '.' head).map fun p => Text.trim (String.ofList p)).filter (· != "")

/-- What kind of type a type is. -/
inductive TypeCategory where
  | classType
  | interfaceType
  | otherType
  deriving Repr, DecidableEq, Inhabited

namespace TypeCategory

/-- The word for a type of this kind when nothing more specific is known. -/
def genericName : TypeCategory → String
  | classType => "class"
  | interfaceType => "interface"
  | otherType => "type"

/-- The category's name in data output. -/
def label : TypeCategory → String
  | classType => "class"
  | interfaceType => "interface"
  | otherType => "other"

end TypeCategory

/-- A dotted name bound to the scope in which it was written. When `within` holds, its
resolution starts at that scope itself, otherwise at the scope's container. -/
structure NameRef where
  scope : Nat
  names : List String
  display : String
  within : Bool := false
  deriving Repr, Inhabited

namespace NameRef

/-- A name read from source text: the display is the trimmed text. -/
def parse (scope : Nat) (text : String) : NameRef :=
  let display := Text.trim text
  { scope, names := dottedParts display, display }

/-- Two names are the same reference when scope and components agree. -/
def sameAs (a b : NameRef) : Bool := a.scope == b.scope && a.names == b.names

end NameRef

/-- A name that refers to a type, with a category hint and an optional construct hint. -/
structure TypeRef where
  name : NameRef
  category : TypeCategory := .otherType
  constructHint : Option String := none
  deriving Repr, Inhabited

namespace TypeRef

/-- A type name read from source text, with the given hints. -/
def parse (scope : Nat) (text : String) (category : TypeCategory)
    (construct : Option String) : TypeRef :=
  { name := NameRef.parse scope text, category, constructHint := construct }

/-- The written text of the name. -/
def display (t : TypeRef) : String := t.name.display

/-- The name components. -/
def names (t : TypeRef) : List String := t.name.names

/-- The construct hint, or else the category's generic word. -/
def construct (t : TypeRef) : String := t.constructHint.getD t.category.genericName

/-- Two type names are the same reference when names and hints agree. -/
def sameAs (a b : TypeRef) : Bool :=
  a.name.sameAs b.name && a.category == b.category && a.constructHint == b.constructHint

end TypeRef

end Lineage
