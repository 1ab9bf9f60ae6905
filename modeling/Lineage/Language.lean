import Lineage.Java.Scan
import Lineage.Python.Scan
/-!
The languages that can be scanned, and what each one says about itself: its identifier,
its display name, the file extensions it handles, its scanner, and how to search its
sources for calls of given methods with `ack` and `grep`.
-/
namespace Lineage

/-- A language with a scanner. -/
inductive Language where
  | java
  | python
  deriving Repr, DecidableEq, Inhabited

/-- A method whose call sites are searched for: its name and its return type's text. -/
structure CallTarget where
  name : String
  returnType : Option String
  deriving Repr, Inhabited

namespace Language

/-- Every language, in the order they are listed. -/
def all : List Language := [.java, .python]

/-- The short identifier. -/
def id : Language → String
  | .java => "java"
  | .python => "python"

/-- The name shown to people. -/
def displayName : Language → String
  | .java => "Java"
  | .python => "Python"

/-- The file extensions handled, without the dot. -/
def extensions : Language → List String
  | .java => ["java"]
  | .python => ["py"]

/-- The `ack` option that restricts a search to the language's files. -/
def ackOption : Language → String
  | .java => "--java"
  | .python => "--python"

/-- The `grep` option that restricts a search to the language's files. -/
def grepOption : Language → String
  | .java => "--include='*.java'"
  | .python => "--include='*.py'"

/-- The language of a file extension; the match is exact. -/
def ofExtension? (ext : String) : Option Language :=
  match ext with
  | "java" => some .java
  | "py" => some .python
  | _ => none

/-- The language of an identifier. -/
def ofId? (id : String) : Option Language :=
  match id with
  | "java" => some .java
  | "python" => some .python
  | _ => none

/-- Scans a file of the language into a tree. -/
def scan : Language → SymbolTree → String → String → Except BuildError (SymbolTree × Nat)
  | .java => Java.scan
  | .python => Python.scan

/-- The list without repeats, each element kept at its first place. -/
def dedupStrings (xs : List String) : List String :=
  xs.foldl (fun acc x => if acc.contains x then acc else acc ++ [x]) []

/-- Writes `[` and `]` with a backslash before them. -/
def escapeBrackets (s : String) : String :=
  String.join (s.toList.map fun c =>
    if c == '[' then "\\[" else if c == ']' then "\\]" else c.toString)

/-- A Perl-style pattern that matches calls of the given methods. For Java, each method is
an alternative that must not follow its own return type and a space, which leaves out the
method's declaration; for Python, no name may follow `def `. -/
def callPattern (l : Language) (targets : List CallTarget) : String :=
  match l with
  | .java =>
    let alts := dedupStrings (targets.map fun t =>
      "(?<!" ++ escapeBrackets (t.returnType.getD "") ++ " )" ++ t.name)
    "\\b(" ++ "|".intercalate alts ++ ")\\s*\\("
  | .python =>
    "\\b(?<!def )(" ++ "|".intercalate (dedupStrings (targets.map (·.name))) ++ ")\\s*\\("

end Language

end Lineage
