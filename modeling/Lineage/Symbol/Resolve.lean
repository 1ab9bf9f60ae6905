import Lineage.Symbol.Basic
/-!
Name resolution over a complete symbol tree.

A dotted name is resolved at a scope by looking, in this order, among the scope's own
children (`resolveLocally`), through the scope's imports (`bindings`), and, when the
scope is a file, type or method, at its container. All candidates are kept, in that
order, and a symbol reached twice is reported once (`resolve`).

Looking among children matches the first component against a child's name and goes on
with the rest inside the child when the child is a package or type. Files are
transparent: their children count as children of the file's container.
-/
namespace Lineage

/-- The list without repeats, each element kept at its first place. -/
def dedupKeepFirst : List Nat → List Nat :=
  fun xs => (xs.foldl (fun (seen, out) x =>
    if seen.contains x then (seen, out) else (x :: seen, x :: out)) ([], [])).2.reverse

namespace SymbolTree

/-- The symbols among the children of `scope` (through files) that a dotted name
matches; the fuel bounds the depth. -/
def resolveLocallyWith (t : SymbolTree) (cls : SymbolClass) :
    Nat → Nat → List String → List Nat
  | 0, _, _ => []
  | fuel + 1, scope, names =>
    (t.get scope).children.toList.flatMap fun child =>
      let s := t.get child
      if s.isTransparent then resolveLocallyWith t cls fuel child names
      else match names with
        | head :: rest =>
          if head == s.name then
            if rest.isEmpty then (if cls.accepts s.kind then [child] else [])
            else if s.isDescendable then resolveLocallyWith t cls fuel child rest
            else []
          else []
        | [] => []

/-- The symbols among the children of `scope` that a dotted name matches. -/
def resolveLocally (t : SymbolTree) (cls : SymbolClass) (scope : Nat) (names : List String) :
    List Nat :=
  t.resolveLocallyWith cls t.size scope names

/-- The symbols that an absolute dotted path names, from the root. -/
def lookup (t : SymbolTree) (path : List String) : List Nat :=
  t.resolveLocally .any 0 path

/-- The members of a scope: its children, with files replaced by their members; the fuel
bounds the depth. -/
def membersWith (t : SymbolTree) : Nat → Nat → List Nat
  | 0, _ => []
  | fuel + 1, scope =>
    (t.get scope).children.toList.flatMap fun child =>
      if (t.get child).isTransparent then membersWith t fuel child else [child]

/-- The members of a scope, looking through files. -/
def members (t : SymbolTree) (scope : Nat) : List Nat := t.membersWith t.size scope

/-- Whether a wildcard import with this rule brings in a symbol. -/
def exports (rule : ExportRule) (s : Symbol) : Bool :=
  match rule with
  | .publicOnly => s.has .publicAccess
  | .notUnderscored => !s.name.startsWith "_"

/-- The bindings an import rule makes in the complete tree. -/
def evaluate (t : SymbolTree) : ImportRule → List Binding
  | .single path localName => (t.lookup path).map fun source => ⟨localName, source⟩
  | .wildcard path rule =>
    ((t.lookup path).flatMap t.members).filterMap fun m =>
      let s := t.get m
      if exports rule s then some ⟨[s.name], m⟩ else none
  | .rootPackages =>
    (t.get 0).children.toList.filterMap fun id =>
      let s := t.get id
      if SymbolClass.package.accepts s.kind then some ⟨[s.name], id⟩ else none

/-- The bindings visible in a scope through its imports, in the order of its rules. They are
evaluated afresh on every read. The program memoises them per scope at the first read, which
gives the same bindings because it resolves names only once every file is scanned and the tree
no longer changes; a read before the last file is added would keep the earlier bindings, and
no run of the program makes one. -/
def bindings (t : SymbolTree) (scope : Nat) : List Binding :=
  ((t.get scope).imports.toList.flatMap t.evaluate).filter fun b => !b.localName.isEmpty

/-- The symbols a dotted name reaches through the imports of a scope. -/
def resolveImported (t : SymbolTree) (cls : SymbolClass) (scope : Nat) (names : List String) :
    List Nat :=
  (t.bindings scope).flatMap fun b =>
    if b.localName.isPrefixOf names then
      let rest := names.drop b.localName.length
      if rest.isEmpty then
        (if cls.accepts (t.get b.source).kind then [b.source] else [])
      else t.resolveLocally cls b.source rest
    else []

/-- The candidates for a dotted name at a scope and its containers, repeats included; the
fuel bounds the chain of containers. -/
def resolveFrom (t : SymbolTree) (cls : SymbolClass) : Nat → Nat → List String → List Nat
  | 0, _, _ => []
  | fuel + 1, scope, names =>
    if names.isEmpty then []
    else
      let s := t.get scope
      let outer := if s.isAscendable then
          match s.parent with
          | some p => resolveFrom t cls fuel p names
          | none => []
        else []
      t.resolveLocally cls scope names ++ t.resolveImported cls scope names ++ outer

/-- The candidates for a dotted name at a scope, each once, in order of discovery. -/
def resolve (t : SymbolTree) (cls : SymbolClass) (scope : Nat) (names : List String) :
    List Nat :=
  dedupKeepFirst (t.resolveFrom cls (t.size + 1) scope names)

end SymbolTree

/-- The candidates for a name: from its scope when `within` holds, otherwise from the
scope's container, and none when there is no container. -/
def NameRef.resolve (r : NameRef) (t : SymbolTree) (cls : SymbolClass) : List Nat :=
  let start := if r.within then some r.scope else (t.symbols[r.scope]?).bind (·.parent)
  match start with
  | some scope => t.resolve cls scope r.names
  | none => []

/-- The types a type name may refer to, from the container of its scope. -/
def TypeRef.resolve (r : TypeRef) (t : SymbolTree) : List Nat := r.name.resolve t .type

end Lineage
