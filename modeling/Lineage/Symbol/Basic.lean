import Lineage.Symbol.Modifier
import Lineage.Symbol.Name
import Lineage.Text.Utf8
/-!
The symbol tree of one language's project.

Every scanned declaration becomes a `Symbol` stored in a `SymbolTree` and addressed by its
index there. The root, index 0, stands for the project; below it lie packages (or Python
modules), files, types and methods. Containment is kept both ways, as each symbol's
`parent` and as its parent's `children` in insertion order.

`SymbolTree.nest` attaches a symbol below another and refuses to attach a symbol to
itself, to attach one that already has a parent, or to attach one whose span escapes its
parent's span in the same file (`BuildError`). Imports are recorded as rules
(`ImportRule`) and evaluated only once the tree is complete (`Symbol.Resolve`).
-/
namespace Lineage

/-- A half-open range of byte offsets in a source file. -/
structure Span where
  start : Nat
  stop : Nat
  deriving Repr, DecidableEq, Inhabited

/-- Whether a span covers another. -/
def Span.contains (s o : Span) : Bool := s.start ≤ o.start && o.stop ≤ s.stop

/-- The halving rounds of a binary search for `x`: the window of `size` entries from `base`
keeps its lower part when the entry in its middle lies above `x`, and its upper part
otherwise, until one entry is left. How many rounds run depends on the size alone. -/
def searchBase (a : Array Nat) (x base size : Nat) : Nat :=
  if size ≤ 1 then base
  else
    let half := size / 2
    let mid := base + half
    searchBase a x (if x < a[mid]?.getD 0 then base else mid) (size - half)
termination_by size

/-- A binary search for `x` in an ascending array: `.ok i` when the entry the halving settles
on is `x`, and otherwise `.error i`, the index `x` would be inserted at. -/
def binarySearch (a : Array Nat) (x : Nat) : Except Nat Nat :=
  if a.size = 0 then .error 0
  else
    let base := searchBase a x 0 a.size
    let v := a[base]?.getD 0
    if v = x then .ok base else .error (if v < x then base + 1 else base)

/-- A scanned source file: its path with `/` separators, its declared package, and the
offsets where its lines start. -/
structure FileRecord where
  path : String
  package : Option String
  lineStarts : Array Nat
  deriving Repr, Inhabited

namespace FileRecord

/-- The offsets just after each line feed of the bytes, after offset 0. -/
def lineStartsOf (bs : ByteArray) : Array Nat :=
  (List.range bs.size).foldl (fun acc i =>
    if Utf8.byteAt bs i == 10 then acc.push (i + 1) else acc) #[0]

/-- The record of a file with the given path and content, without a package. -/
def new (path content : String) : FileRecord :=
  ⟨path, none, lineStartsOf content.toUTF8⟩

/-- The file name: the part of the path after its last `/`. -/
def name (f : FileRecord) : String :=
  (f.path.splitOn "/").getLast?.getD f.path

/-- The line, counted from one, that holds byte offset `pos`, by a binary search of the line
starts: a start found at index `i` begins line `i + 1`, and an offset between starts lies on
the line of the start before the place it would be inserted at. -/
def lineOf (f : FileRecord) (pos : Nat) : Nat :=
  match binarySearch f.lineStarts pos with
  | .ok line => line + 1
  | .error line => line

end FileRecord

/-- Which members of a scope a wildcard import brings in. -/
inductive ExportRule where
  /-- Only the members declared public. -/
  | publicOnly
  /-- Every member whose name does not start with an underscore. -/
  | notUnderscored
  deriving Repr, DecidableEq, Inhabited

/-- A recorded import, evaluated against the complete tree. Paths start at the root. -/
inductive ImportRule where
  /-- Binds `localName` to what the path names. -/
  | single (path localName : List String)
  /-- Binds every exported member of what the path names under its own name. -/
  | wildcard (path : List String) (rule : ExportRule)
  /-- Binds every top-level package under its name, so that full names resolve. -/
  | rootPackages
  deriving Repr, DecidableEq, Inhabited

namespace ImportRule

/-- Imports a path under its last component, or under an alias; none for an empty path
without an alias. -/
def named (path : List String) (localName : Option String) : Option ImportRule :=
  match localName with
  | some a => some (single path [a])
  | none => path.getLast?.map fun last => single path [last]

/-- Imports a path under its full dotted name; none for an empty path. -/
def qualified (path : List String) : Option ImportRule :=
  if path.isEmpty then none else some (single path path)

end ImportRule

/-- A local name bound by an import to a symbol. -/
structure Binding where
  localName : List String
  source : Nat
  deriving Repr, DecidableEq, Inhabited

/-- A formal parameter of a method. Parameters are not symbols of the tree. -/
structure Param where
  name : String
  file : Option Nat
  span : Option Span
  modifiers : Modifiers := .empty
  type : Option TypeRef := none
  defaultValue : Option String := none
  /-- A receiver that the language supplies (`self`, `cls`). -/
  implicit : Bool := false
  deriving Repr, Inhabited

/-- The parameter as shown: its type's text and its name, or only the name. -/
def Param.display (p : Param) : String :=
  match p.type with
  | some t => t.display ++ " " ++ p.name
  | none => p.name

/-- What a type declaration says: its category, the keyword shown for it, its super types
in order without repeats, and a metaclass. -/
structure TypeInfo where
  category : TypeCategory
  construct : String
  supers : List TypeRef := []
  metaType : Option TypeRef := none
  deriving Repr, Inhabited

/-- Adds a super type unless the same reference is there already. -/
def TypeInfo.addSuper (t : TypeInfo) (r : TypeRef) : TypeInfo :=
  if t.supers.any (·.sameAs r) then t else { t with supers := t.supers ++ [r] }

/-- What a method, function or constructor declaration says. -/
structure MethodInfo where
  returnType : Option TypeRef := none
  isConstructor : Bool := false
  params : List Param := []
  exceptions : List TypeRef := []
  deriving Repr, Inhabited

/-- The kinds of symbol. -/
inductive SymbolKind where
  | project (language : String)
  /-- A package or a module; the construct is `package` or `module`. -/
  | package (construct : String)
  /-- A source file, transparent to dotted names. -/
  | file
  | type (info : TypeInfo)
  | method (info : MethodInfo)
  deriving Repr, Inhabited

/-- Which symbols a resolution request accepts. -/
inductive SymbolClass where
  | any
  | package
  | type
  | method
  deriving Repr, DecidableEq, Inhabited

/-- Whether a class of request accepts a kind of symbol. -/
def SymbolClass.accepts : SymbolClass → SymbolKind → Bool
  | .any, _ => true
  | .package, .package _ => true
  | .type, .type _ => true
  | .method, .method _ => true
  | _, _ => false

/-- A declaration in the tree. -/
structure Symbol where
  name : String
  file : Option Nat := none
  span : Option Span := none
  modifiers : Modifiers := .empty
  kind : SymbolKind
  typeParams : Option String := none
  parent : Option Nat := none
  children : Array Nat := #[]
  imports : Array ImportRule := #[]
  deriving Repr, Inhabited

namespace Symbol

/-- Whether a name that is not found here may be looked up in the container. -/
def isAscendable (s : Symbol) : Bool :=
  match s.kind with
  | .file | .type _ | .method _ => true
  | _ => false

/-- Whether a dotted name may go on through this symbol into its children. -/
def isDescendable (s : Symbol) : Bool :=
  match s.kind with
  | .package _ | .type _ => true
  | _ => false

/-- Whether name matching passes straight through to the children: files. -/
def isTransparent (s : Symbol) : Bool :=
  match s.kind with
  | .file => true
  | _ => false

/-- Whether the symbol is a type. -/
def isType (s : Symbol) : Bool :=
  match s.kind with
  | .type _ => true
  | _ => false

/-- The type declaration, if the symbol is a type. -/
def typeInfo? (s : Symbol) : Option TypeInfo :=
  match s.kind with
  | .type t => some t
  | _ => none

/-- The method declaration, if the symbol is a method. -/
def methodInfo? (s : Symbol) : Option MethodInfo :=
  match s.kind with
  | .method m => some m
  | _ => none

/-- The keyword that describes the symbol. -/
def construct (s : Symbol) : String :=
  match s.kind with
  | .project _ => "project"
  | .package c => c
  | .file => "file"
  | .type t => t.construct
  | .method m => if m.isConstructor then "constructor" else "method"

/-- Whether the symbol carries a modifier. -/
def has (s : Symbol) (m : Modifier) : Bool := s.modifiers.contains m

end Symbol

/-- Ways in which a tree or a hierarchy refuses to grow. -/
inductive BuildError where
  | escapes (child : String) (childSpan : Span) (parent : String) (parentSpan : Span)
  | alreadyNested (child parent : String)
  | selfNesting (name : String)
  | duplicateType (name : String)
  deriving Repr, DecidableEq, Inhabited

/-- The text of an error. -/
def BuildError.message : BuildError → String
  | .escapes c ⟨a, b⟩ p ⟨x, y⟩ =>
    s!"definition {c} ({a}-{b}) cannot be nested within {p} ({x}-{y})"
  | .alreadyNested c p => s!"definition {c} is already nested within {p}"
  | .selfNesting n => s!"definition {n} cannot be nested within itself"
  | .duplicateType n => s!"type definition {n} was added to the tree builder more than once"

/-- The symbols of a project and its files. -/
structure SymbolTree where
  symbols : Array Symbol
  files : Array FileRecord
  deriving Repr, Inhabited

namespace SymbolTree

/-- A tree holding only its root, a project of the given name and language. -/
def new (name language : String) : SymbolTree :=
  ⟨#[{ name, kind := .project language }], #[]⟩

/-- The number of symbols. -/
def size (t : SymbolTree) : Nat := t.symbols.size

/-- The symbol at an index (a default one past the end). -/
def get (t : SymbolTree) (id : Nat) : Symbol := t.symbols[id]?.getD default

/-- Changes the symbol at an index. -/
def modify (t : SymbolTree) (id : Nat) (f : Symbol → Symbol) : SymbolTree :=
  { t with symbols := t.symbols.modify id f }

/-- Registers a file; gives its index. -/
def addFile (t : SymbolTree) (f : FileRecord) : SymbolTree × Nat :=
  ({ t with files := t.files.push f }, t.files.size)

/-- The file at an index. -/
def file? (t : SymbolTree) (id : Nat) : Option FileRecord := t.files[id]?

/-- Stores a symbol that is not yet attached; gives its index. -/
def alloc (t : SymbolTree) (s : Symbol) : SymbolTree × Nat :=
  ({ t with symbols := t.symbols.push s }, t.symbols.size)

/-- Links a child below a parent without checks. -/
def link (t : SymbolTree) (parent child : Nat) : SymbolTree :=
  (t.modify child fun s => { s with parent := some parent }).modify parent
    fun s => { s with children := s.children.push child }

/-- Attaches `child` below `parent`; see the module comment for the refusals. -/
def nest (t : SymbolTree) (parent child : Nat) : Except BuildError SymbolTree :=
  let p := t.get parent
  let c := t.get child
  if parent == child then .error (.selfNesting c.name)
  else match c.parent with
    | some existing => .error (.alreadyNested c.name (t.get existing).name)
    | none =>
      match p.span, c.span with
      | some ps, some cs =>
        if p.file.isSome && p.file == c.file && !ps.contains cs then
          .error (.escapes c.name cs p.name ps)
        else .ok (t.link parent child)
      | _, _ => .ok (t.link parent child)

/-- The package or module of a name directly below a parent, created if absent. -/
def packageChild (t : SymbolTree) (parent : Nat) (name construct : String) :
    SymbolTree × Nat :=
  let found := (t.get parent).children.find? fun id =>
    let s := t.get id
    s.name == name && match s.kind with
      | .package _ => true
      | _ => false
  match found with
  | some id => (t, id)
  | none =>
    let (t, id) := t.alloc { name, kind := .package construct }
    (t.link parent id, id)

/-- Walks down a dotted package path from a parent, creating packages as needed. -/
def packagePath (t : SymbolTree) (parent : Nat) (names : List String) (construct : String) :
    SymbolTree × Nat :=
  names.foldl (fun (t, scope) name => t.packageChild scope name construct) (t, parent)

/-- Gives a file and span to a symbol that has no span yet. -/
def setLocation (t : SymbolTree) (id file : Nat) (span : Span) : SymbolTree :=
  t.modify id fun s =>
    if s.span.isNone then { s with file := some file, span := some span } else s

/-- Adds a modifier to a symbol. -/
def addModifier (t : SymbolTree) (id : Nat) (m : Modifier) : SymbolTree :=
  t.modify id fun s => { s with modifiers := s.modifiers.insert m }

/-- Records an import rule of a scope, unless it is recorded already. -/
def addImport (t : SymbolTree) (id : Nat) (r : ImportRule) : SymbolTree :=
  t.modify id fun s => if s.imports.contains r then s else { s with imports := s.imports.push r }

/-- The symbols below `id`, itself included, in pre-order, that the class accepts; the
fuel bounds the depth. -/
def walkFrom (t : SymbolTree) (cls : SymbolClass) : Nat → Nat → List Nat
  | 0, _ => []
  | fuel + 1, id =>
    let s := t.get id
    (if cls.accepts s.kind then [id] else []) ++ s.children.toList.flatMap (walkFrom t cls fuel)

/-- The loop of `walk` over a stack whose top is its last element: it pops a symbol, lists
it when it is not the root and the class accepts it, and pushes its children in reverse, so
that the first child is popped next; the fuel bounds the number of pops. -/
def walkLoop (t : SymbolTree) (cls : SymbolClass) : Nat → Array Nat → Array Nat → Array Nat
  | 0, _, found => found
  | fuel + 1, stack, found =>
    match stack.back? with
    | none => found
    | some id =>
      let s := t.get id
      let found := if id != 0 && cls.accepts s.kind then found.push id else found
      walkLoop t cls fuel (stack.pop ++ s.children.reverse) found

/-- Every symbol below the root that the class accepts, in depth-first pre-order over the
children in insertion order, by a loop over a stack that starts with the root. -/
def walk (t : SymbolTree) (cls : SymbolClass) : List Nat :=
  (t.walkLoop cls t.size #[0] #[]).toList

/-- The containers of a symbol, innermost first; the fuel bounds the chain. -/
def ancestorsFrom (t : SymbolTree) : Nat → Nat → List Nat
  | 0, _ => []
  | fuel + 1, id =>
    match (t.get id).parent with
    | some p => p :: t.ancestorsFrom fuel p
    | none => []

/-- The containers of a symbol, innermost first. -/
def ancestors (t : SymbolTree) (id : Nat) : List Nat := t.ancestorsFrom t.size id

/-- The dotted name of a symbol: its own name after those of its containers, leaving out
the project and files. -/
def qualifiedName (t : SymbolTree) (id : Nat) : String :=
  let chain := (id :: t.ancestors id).filter fun a =>
    match (t.get a).kind with
    | .project _ | .file => false
    | _ => true
  ".".intercalate (chain.reverse.map fun a => (t.get a).name)

end SymbolTree

end Lineage
