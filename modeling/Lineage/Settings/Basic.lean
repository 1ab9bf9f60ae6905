import Lineage.Settings.Glob
import Lineage.Yaml.Typed
import Lineage.Report.Search
import Lineage.Text.Trim
/-!
Settings read from a YAML file.

Every field may be left out: the paths to exclude (globs relative to the scanned directory),
the languages to scan (empty means all), whether to draw trees in ASCII, which search tool
to suggest, and whether types without inheritance are listed. Command-line flags take
precedence over these values.

A text that is blank gives the defaults, as does a document with no content. Otherwise the
first document must be a mapping; fields it does not know are skipped, a field given twice
is an error, and a value of the wrong type is reported with the field's name and the value's
position. After reading, every language must be known and every glob must be valid.
-/
namespace Lineage

/-- The settings. A field left out is `none` or empty. -/
structure Settings where
  excludedPaths : List String
  languages : List String
  ascii : Option Bool
  searchTool : Option SearchTool
  showStandalone : Option Bool
  deriving Repr, Inhabited

namespace Settings

/-- Nothing set. -/
def empty : Settings := ⟨[], [], none, none, none⟩

/-- The names of the files looked for in a scanned directory, in order. -/
def fileNames : List String := ["polytree.yaml", ".polytree.yaml"]

/-- Whether trees are drawn in ASCII (no by default). -/
def useAscii (s : Settings) : Bool := s.ascii.getD false

/-- The search tool to suggest (ack by default). -/
def tool (s : Settings) : SearchTool := s.searchTool.getD .ack

/-- Whether types without inheritance are listed (yes by default). -/
def listsStandalone (s : Settings) : Bool := s.showStandalone.getD true

/-- Whether a path relative to the scanned directory matches an excluded glob. Globs that do
not read are passed over. -/
def isPathExcluded (s : Settings) (path : String) : Bool :=
  s.excludedPaths.any fun p =>
    match Glob.parse p with
    | .ok tokens => Glob.matchesPath tokens path
    | .error _ => false

/-- Checks the languages (all known) and then the globs (all readable). -/
def validate (s : Settings) : Except String Unit :=
  let known := Language.all.map Language.id
  match s.languages.find? fun l => !known.contains l with
  | some l =>
    .error ("unknown language " ++ Text.debugQuote l ++ " (supported: " ++ ", ".intercalate known ++ ")")
  | none =>
    let bad := s.excludedPaths.findSome? fun p =>
      match Glob.parse p with
      | .ok _ => none
      | .error e => some ("invalid excluded path pattern " ++ Text.debugQuote p ++
          ": error parsing glob '" ++ p ++ "': " ++ e.message)
    match bad with
    | some msg => .error msg
    | none => .ok ()

end Settings

namespace Yaml

/-- The fields read so far; a field read twice is an error. -/
structure SettingsDraft where
  excludedPaths : Option (List String)
  languages : Option (List String)
  ascii : Option (Option Bool)
  searchTool : Option (Option SearchTool)
  showStandalone : Option (Option Bool)
  deriving Inhabited

/-- No field read yet. -/
def SettingsDraft.empty : SettingsDraft := ⟨none, none, none, none, none⟩

/-- The settings, with defaults for the fields not read. -/
def SettingsDraft.finish (d : SettingsDraft) : Settings :=
  ⟨d.excludedPaths.getD [], d.languages.getD [], d.ascii.getD none, d.searchTool.getD none,
    d.showStandalone.getD none⟩

/-- The error for a field given twice. -/
def duplicateField (name : String) : DecodeError :=
  .message ("duplicate field `" ++ name ++ "`") none

/-- The search tool a variant name stands for. -/
def toolNamed (name : String) : SearchTool :=
  if name == "grep" then .grep else .ack

/-- Reads the entries of the settings mapping up to its end. A key is read as a field name;
its value is read with the key as its path (or `?` when the key is not a scalar). -/
def readSettingsEntries (d : Document) (fuel : Nat) :
    Nat → SettingsDraft → Nat → Except DecodeError (SettingsDraft × Nat)
  | 0, draft, pos => pure (draft, pos)
  | n + 1, draft, pos => do
    let (item, _) ← d.item pos
    match item with
    | .mappingEnd => pure (draft, pos + 1)
    | .void => pure (draft, pos)
    | _ =>
      let path := match item with
        | .scalar text _ _ => text
        | _ => "?"
      let (name, pos) ← readString d "field identifier" fuel "." pos
      let strings := readSequence d (readString d "a string") fuel path
      if name == "excluded_paths" then
        if draft.excludedPaths.isSome then throw (duplicateField name)
        let (v, pos) ← strings pos
        readSettingsEntries d fuel n { draft with excludedPaths := some v } pos
      else if name == "languages" then
        if draft.languages.isSome then throw (duplicateField name)
        let (v, pos) ← strings pos
        readSettingsEntries d fuel n { draft with languages := some v } pos
      else if name == "ascii" then
        if draft.ascii.isSome then throw (duplicateField name)
        let (v, pos) ← readOption d (readBool d) fuel path pos
        readSettingsEntries d fuel n { draft with ascii := some v } pos
      else if name == "search_tool" then
        if draft.searchTool.isSome then throw (duplicateField name)
        let (v, pos) ← readOption d (readVariant d ["ack", "grep"]) fuel path pos
        readSettingsEntries d fuel n { draft with searchTool := some (v.map toolNamed) } pos
      else if name == "show_standalone" then
        if draft.showStandalone.isSome then throw (duplicateField name)
        let (v, pos) ← readOption d (readBool d) fuel path pos
        readSettingsEntries d fuel n { draft with showStandalone := some v } pos
      else
        let pos ← skipValue d (d.items.size + 1) 0 pos
        readSettingsEntries d fuel n draft pos

/-- Reads the settings from a loaded document: a mapping, or nothing at all. -/
def readSettings (d : Document) : Except DecodeError Settings := do
  let fuel := d.items.size + 1
  let (item, mark) ← d.item 0
  match item with
  | .mappingStart _ =>
    let (draft, _) ← (readSettingsEntries d fuel fuel SettingsDraft.empty 1).mapError
      fun e => e.fix mark "."
    pure draft.finish
  | .void => pure Settings.empty
  | .scalar "" .plain _ => pure Settings.empty
  | other => throw ((invalidType other "struct Config").fix mark ".")

end Yaml

namespace Settings

/-- Reads settings from a YAML text and checks them. -/
def parse (text : String) : Except String Settings :=
  if Text.isBlankText text then .ok empty
  else
    let doc := Yaml.load text
    match Yaml.readSettings doc with
    | .error e => .error e.render
    | .ok s =>
      match doc.error with
      | some msg => .error msg
      | none =>
        if doc.more then
          .error "deserializing from YAML containing more than one document is not supported"
        else (s.validate).map fun _ => s

end Settings

end Lineage
