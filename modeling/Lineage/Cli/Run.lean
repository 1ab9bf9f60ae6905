import Lineage.Cli.Args
import Lineage.Cli.Files
import Lineage.Settings.Basic
import Lineage.Report.Data
import Lineage.Report.Tree
/-!
A run of the command on a directory tree.

The run checks the output format, resolves the directory to scan (it must exist and be a
directory), and reads the settings: from the file named on the command line (relative to the
working directory), or else from the first of the settings files found directly in the
scanned directory. Any of these failing ends the run with exit code 2 and no output.

It then walks the scanned directory: entries in name order, hidden directories below it
left out, files whose name starts with `._` left out, files matching an excluded glob (by
their path relative to the scanned directory) left out, and only files that a language takes
kept. Each kept file is scanned into its language's codebase, and each codebase's hierarchy is
built.

The output is the data report (with the path as written on the command line) or, for each
codebase, the tree report and, unless turned off, the search commands. Command-line flags
win over the settings: `--ascii` draws in ASCII whatever the settings say, `--grep` picks
grep. The exit code is 1 when no type was found and 0 otherwise.
-/
namespace Lineage.Cli

/-- How a run ends: its exit code and what it printed. -/
structure Outcome where
  exit : Nat
  stdout : String
  deriving Repr, Inhabited

/-- The exit code for a failed run. -/
def exitError : Nat := 2

/-- A failed run: no output. -/
def failed : Outcome := ⟨exitError, ""⟩

/-- Reads settings from a file; a file that is missing, a directory, or not UTF-8 text
cannot be read. -/
def readSettingsFile (t : FileTree) (p : List String) : Except String Settings :=
  match (t.read? p).bind String.fromUTF8? with
  | none => .error "cannot read config file"
  | some text => Settings.parse text

/-- The settings of a run: from the file given, else from the first settings file in the
scanned directory, else the defaults. -/
def loadSettings (t : FileTree) (cwd root : List String) (config : Option String) :
    Except String Settings :=
  match config with
  | some path =>
    match t.resolve cwd path with
    | some p => readSettingsFile t p
    | none => .error "cannot read config file"
  | none =>
    match Settings.fileNames.find? fun n => t.isFile (root ++ [n]) with
    | some n => readSettingsFile t (root ++ [n])
    | none => .ok Settings.empty

/-- A path below the root, written relative to it with `/`. -/
def relativePath (root p : List String) : String :=
  "/".intercalate (p.drop root.length)

/-- The files of a run, in walking order, with their relative paths. -/
def runFiles (t : FileTree) (root : List String) (cfg : Settings) (corpus : Corpus) :
    List (List String × String) :=
  (t.walk (t.depth + 1) root).filterMap fun p =>
    let rel := relativePath root p
    let name := p.getLast?.getD ""
    if name.startsWith "._" || cfg.isPathExcluded rel || (corpus.languageFor rel).isNone then none
    else some (p, rel)

/-- Scans the files into the corpus, in order; a model error stops the scan. -/
def scanFiles (t : FileTree) : Corpus → List (List String × String) → Except BuildError Corpus
  | c, [] => .ok c
  | c, (p, rel) :: rest =>
    let (c, r) := c.addBytes rel ((t.read? p).getD ByteArray.empty)
    match r with
    | .ok _ => scanFiles t c rest
    | .error e => .error e

/-- The text printed for the built codebases. -/
def runOutput (o : Options) (cfg : Settings) (built : List (Codebase × Hierarchy)) : String :=
  if o.format == "json" then (reportData o.path built).pretty ++ "\n"
  else
    let opts : TreeOptions := ⟨o.ascii || cfg.useAscii, cfg.listsStandalone⟩
    let tool := if o.grep then SearchTool.grep else cfg.tool
    String.join (built.map fun (cb, h) =>
      treeReport cb h opts ++ (if o.noSearch then "" else searchReport cb h tool o.path))

/-- Runs the command on a tree, from a working directory. A model error while scanning or
building ends the run with that error. -/
def run (t : FileTree) (cwd : List String) (o : Options) : Except BuildError Outcome :=
  if o.format != "pretty" && o.format != "json" then .ok failed
  else match t.resolve cwd o.path with
  | none => .ok failed
  | some root =>
    if !t.isDir root then .ok failed
    else match loadSettings t cwd root o.config with
    | .error _ => .ok failed
    | .ok cfg => do
      let corpus : Corpus := { name := root.getLast?.getD "project", languages := cfg.languages }
      let corpus ← scanFiles t corpus (runFiles t root cfg corpus)
      let built ← corpus.codebases.toList.mapM fun cb => (cb.hierarchy).map fun h => (cb, h)
      pure ⟨if corpus.typeCount == 0 then 1 else 0, runOutput o cfg built⟩

end Lineage.Cli
