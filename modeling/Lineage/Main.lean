import Lineage.Cli.Run
/-!
The command-line program.

It reads its arguments, loads the directory to scan (and the settings file named on the
command line) from the disk into a `FileTree`, runs the command on it, prints the output and
exits with the run's code. Help and version requests print their texts; any other error in
the arguments prints a short message and exits with code 2.
-/
namespace Lineage.Cli

/-- The components of an absolute path. -/
def pathParts (s : String) : List String :=
  (s.splitOn "/").filter (· != "")

/-- The version text. -/
def versionText : String := "polytree 0.1.0"

/-- The help text. -/
def helpText : String :=
  "Show the inheritance trees of a Java or Python source tree, and how to find the " ++
  "polymorphic method calls within it\n\n" ++
  "Usage: polytree [OPTIONS] [PATH]\n\n" ++
  "Arguments:\n" ++
  "  [PATH]  Directory to scan [default: .]\n\n" ++
  "Options:\n" ++
  "  -a, --ascii            Draw trees with ASCII characters only\n" ++
  "  -g, --grep             Suggest grep commands instead of ack\n" ++
  "  -f, --format <FORMAT>  Output format: pretty or json [default: pretty]\n" ++
  "  -c, --config <CONFIG>  Path to config YAML file (default: auto-discover in the scanned directory)\n" ++
  "      --no-search        Do not suggest search commands\n" ++
  "  -v, --verbose          Log each recognised declaration\n" ++
  "  -h, --help             Print help\n" ++
  "  -V, --version          Print version"

/-- The message for an argument error. -/
def ArgError.message : ArgError → String
  | .unknownArgument => "error: unexpected argument"
  | .invalidValue => "error: a value is required"
  | .argumentConflict => "error: an argument cannot be used multiple times"
  | .tooManyValues => "error: unexpected value for a flag"
  | .displayHelp => helpText
  | .displayVersion => versionText

end Lineage.Cli

open Lineage Lineage.Cli

/-- Reads the tree below a directory: every directory and every file's contents. Hidden
directories are not entered, since a run never looks inside them. -/
partial def loadTree (dir : String) (parts : List String) (acc : FileTree) : IO FileTree := do
  let entries ← (← IO.FS.realPath dir).readDir
  let mut acc := { acc with dirs := acc.dirs ++ [parts] }
  for e in entries do
    let name := IO.FS.DirEntry.fileName e
    let path := IO.FS.DirEntry.path e
    if ← path.isDir then
      if !name.startsWith "." then
        acc ← loadTree path.toString (parts ++ [name]) acc
    else
      let bytes ← IO.FS.readBinFile path
      acc := { acc with files := acc.files ++ [(parts ++ [name], bytes)] }
  return acc

/-- Adds a file to the tree, under its real path, if it can be read. -/
def loadFile (path : String) (acc : FileTree) : IO FileTree := do
  try
    let real ← IO.FS.realPath path
    let bytes ← IO.FS.readBinFile real
    return { acc with files := acc.files ++ [(pathParts real.toString, bytes)] }
  catch _ => return acc

/-- Loads what a run reads: the directory to scan and the settings file given. -/
def loadInputs (o : Options) : IO FileTree := do
  let tree : FileTree := ⟨[], []⟩
  let tree ← try
      let real ← IO.FS.realPath o.path
      if ← real.isDir then loadTree real.toString (pathParts real.toString) tree else pure tree
    catch _ => pure tree
  match o.config with
  | some c => loadFile c tree
  | none => pure tree

def main (args : List String) : IO UInt32 := do
  match parseArgs args with
  | .error .displayHelp =>
    IO.println helpText
    return 0
  | .error .displayVersion =>
    IO.println versionText
    return 0
  | .error e =>
    IO.eprintln e.message
    return 2
  | .ok o =>
    let cwd ← IO.currentDir
    let tree ← loadInputs o
    match run tree (pathParts cwd.toString) o with
    | .ok outcome =>
      let out ← IO.getStdout
      out.putStr outcome.stdout
      out.flush
      return outcome.exit.toUInt32
    | .error e =>
      IO.eprintln ("Error: " ++ e.message)
      return 2
