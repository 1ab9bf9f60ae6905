/-!
A directory tree held in memory.

A path is the list of its components from the root. The tree lists its files with their
contents and, besides, directories that may be empty; every proper prefix of a listed path
is a directory too.

On such a tree this module resolves a path written as text against a working directory (as
the operating system does: `.` and empty components stay put, `..` goes up, and every step
must pass through an existing directory), lists a directory's entries sorted by name, and
walks a directory depth first, each directory's entries in name order.
-/
namespace Lineage.Cli

/-- A directory tree: files with their contents, and directories. -/
structure FileTree where
  files : List (List String × ByteArray)
  dirs : List (List String)
  deriving Inhabited

namespace FileTree

/-- Whether a path names a file. -/
def isFile (t : FileTree) (p : List String) : Bool :=
  t.files.any fun (q, _) => q == p

/-- Whether a path names a directory: the root, a listed directory, or a proper prefix of a
listed path. -/
def isDir (t : FileTree) (p : List String) : Bool :=
  p.isEmpty || t.dirs.contains p ||
    t.files.any (fun (q, _) => p.isPrefixOf q && p.length < q.length) ||
    t.dirs.any fun q => p.isPrefixOf q && p.length < q.length

/-- Whether a path names anything. -/
def has (t : FileTree) (p : List String) : Bool := t.isFile p || t.isDir p

/-- The contents of a file. -/
def read? (t : FileTree) (p : List String) : Option ByteArray :=
  (t.files.find? fun (q, _) => q == p).map (·.2)

/-- Inserts a name into a list sorted by name, keeping one copy. -/
def insertName (n : String) : List String → List String
  | [] => [n]
  | m :: ms => if n == m then m :: ms else if n < m then n :: m :: ms else m :: insertName n ms

/-- The names of a directory's entries, sorted. -/
def entries (t : FileTree) (p : List String) : List String :=
  let below := (t.files.map (·.1)) ++ t.dirs
  let names := below.filterMap fun q =>
    if p.isPrefixOf q && p.length < q.length then q[p.length]? else none
  names.foldl (fun acc n => insertName n acc) []

/-- Splits a path written with `/` into its components; empty components are kept. -/
def components (path : String) : List String :=
  (path.splitOn "/")

/-- Resolves a path against a working directory. A path starting with `/` starts at the
root. Fails when a step leaves the existing directories; the result exists. -/
def resolve (t : FileTree) (cwd : List String) (path : String) : Option (List String) :=
  let parts := components path
  let (start, parts) := if path.startsWith "/" then ([], parts.drop 1) else (cwd, parts)
  let rec go : List String → List String → Option (List String)
    | cur, [] => some cur
    | cur, part :: rest =>
      if !t.isDir cur then none
      else if part == "" || part == "." then go cur rest
      else if part == ".." then go cur.dropLast rest
      else
        let next := cur ++ [part]
        if t.has next then go next rest else none
  if t.has start then go start parts else none

/-- The files below a directory in walking order: depth first, entries by name. Directories
whose name starts with a dot are not entered. The fuel bounds the depth. -/
def walk (t : FileTree) : Nat → List String → List (List String)
  | 0, _ => []
  | n + 1, dir =>
    (t.entries dir).flatMap fun name =>
      let p := dir ++ [name]
      if t.isDir p then (if name.startsWith "." then [] else walk t n p)
      else if t.isFile p then [p]
      else []

/-- The deepest path in the tree, which bounds any walk. -/
def depth (t : FileTree) : Nat :=
  ((t.files.map fun (p : List String × ByteArray) => p.1.length) ++ t.dirs.map List.length).foldl max 0

end FileTree

end Lineage.Cli
