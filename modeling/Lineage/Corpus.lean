import Lineage.Language
import Lineage.Hierarchy.Build
/-!
A corpus: the scanned files of a source tree, one codebase per language.

Each file goes to the codebase of the language its extension names, created when the
language is first met; names never resolve from one codebase into another. A language
filter, when not empty, refuses the files of other languages. Bytes that are not UTF-8
are read lossily first.
-/
namespace Lineage

/-- The scanned files of one language. -/
structure Codebase where
  language : Language
  tree : SymbolTree
  fileCount : Nat
  deriving Repr, Inhabited

namespace Codebase

/-- The number of type symbols. -/
def typeCount (c : Codebase) : Nat := (c.tree.walk .type).length

/-- The inheritance hierarchy of the codebase. -/
def hierarchy (c : Codebase) : Except BuildError Hierarchy := c.tree.hierarchy

end Codebase

/-- The codebases of a source tree, in the order their languages were first met. -/
structure Corpus where
  name : String
  languages : List String := []
  codebases : Array Codebase := #[]
  deriving Repr, Inhabited

/-- The last component of a path, as a file name: parts are split at `/`, empty and `.`
parts are left out, and a path ending in `..` has none. -/
def fileName? (path : String) : Option String :=
  let parts := ((splitAt '/' path.toList).map String.ofList).filter fun p => p != "" && p != "."
  match parts.getLast? with
  | some ".." => none
  | some p => some p
  | none => none

/-- The extension of a path: what follows the last dot of its file name, none when the name
has no dot or its only dot starts it. -/
def extension? (path : String) : Option String :=
  match fileName? path with
  | none => none
  | some name =>
    match (splitAt '.' name.toList).reverse with
    | after :: before :: rest =>
      if rest.isEmpty && before.isEmpty then none
      else some (String.ofList after)
    | _ => none

namespace Corpus

/-- The language that would scan a path, if its extension has one and the filter allows
it. -/
def languageFor (c : Corpus) (path : String) : Option Language :=
  match (extension? path).bind Language.ofExtension? with
  | some l => if c.languages.isEmpty || c.languages.contains l.id then some l else none
  | none => none

/-- Scans a file into the codebase of its language; tells whether a language took it. -/
def addFile (c : Corpus) (path content : String) : Corpus × Except BuildError Bool :=
  match c.languageFor path with
  | none => (c, .ok false)
  | some l =>
    let (c, i) := match c.codebases.findIdx? (·.language == l) with
      | some i => (c, i)
      | none =>
        ({ c with codebases := c.codebases.push ⟨l, SymbolTree.new c.name l.id, 0⟩ },
          c.codebases.size)
    let cb := c.codebases[i]?.getD ⟨l, SymbolTree.new c.name l.id, 0⟩
    match l.scan cb.tree path content with
    | .ok (tree, _) =>
      ({ c with codebases := c.codebases.setIfInBounds i { cb with tree, fileCount := cb.fileCount + 1 } },
        .ok true)
    | .error e => (c, .error e)

/-- Scans a file given as bytes, read lossily as UTF-8. -/
def addBytes (c : Corpus) (path : String) (bytes : ByteArray) : Corpus × Except BuildError Bool :=
  c.addFile path (Utf8.decode bytes)

/-- The number of type symbols of all codebases. -/
def typeCount (c : Corpus) : Nat := c.codebases.foldl (fun n cb => n + cb.typeCount) 0

end Corpus

end Lineage
