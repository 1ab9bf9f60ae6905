/-!
The command line.

The command takes one optional positional argument, the directory to scan (`.` by default),
the flags `-a`/`--ascii`, `-g`/`--grep`, `--no-search` and `-v`/`--verbose`, and the options
`-f`/`--format` (`pretty` by default) and `-c`/`--config`, each with one value. `-h`/`--help`
and `-V`/`--version` ask for the help and version texts.

The reading rules:
* short flags may be grouped (`-agv`); an option's value may follow it in the same word
  (`-fjson`, `-f=json`), after `=` in the long form (`--format=json`), or as the next word;
* a word that looks like a flag is read as one even where a value is expected, so `-f -a`
  leaves `-f` without a value;
* after `--` every word is positional;
* an argument given twice is a conflict, and a second positional word is unknown;
* a flag given a value with `=` has too many values; an empty path is an invalid value.

Values are checked when the argument is complete, which is when the next flag or positional
word is met, or at the end. A word that is not an argument at all stops the reading at once,
without checking the value still open.
-/
namespace Lineage.Cli

/-- Why the command line was not accepted, or the texts it asks for. -/
inductive ArgError where
  | unknownArgument
  | invalidValue
  | argumentConflict
  | tooManyValues
  | displayHelp
  | displayVersion
  deriving Repr, DecidableEq, Inhabited

/-- The name of the kind of error. -/
def ArgError.kindName : ArgError → String
  | .unknownArgument => "UnknownArgument"
  | .invalidValue => "InvalidValue"
  | .argumentConflict => "ArgumentConflict"
  | .tooManyValues => "TooManyValues"
  | .displayHelp => "DisplayHelp"
  | .displayVersion => "DisplayVersion"

/-- The arguments of the command. -/
inductive ArgName where
  | path
  | ascii
  | grep
  | format
  | config
  | noSearch
  | verbose
  | help
  | version
  deriving Repr, DecidableEq, Inhabited

/-- Whether an argument takes a value. -/
def ArgName.takesValue : ArgName → Bool
  | .path => true
  | .format => true
  | .config => true
  | _ => false

/-- Whether an empty value is refused (the value is a path). -/
def ArgName.isPath : ArgName → Bool
  | .path => true
  | .config => true
  | _ => false

/-- The argument with a long name. -/
def longArg? : String → Option ArgName
  | "ascii" => some .ascii
  | "grep" => some .grep
  | "format" => some .format
  | "config" => some .config
  | "no-search" => some .noSearch
  | "verbose" => some .verbose
  | "help" => some .help
  | "version" => some .version
  | _ => none

/-- The argument with a short name. -/
def shortArg? : Char → Option ArgName
  | 'a' => some .ascii
  | 'g' => some .grep
  | 'f' => some .format
  | 'c' => some .config
  | 'v' => some .verbose
  | 'h' => some .help
  | 'V' => some .version
  | _ => none

/-- The options of a run. -/
structure Options where
  path : String
  ascii : Bool
  grep : Bool
  format : String
  config : Option String
  noSearch : Bool
  verbose : Bool
  deriving Repr, Inhabited

/-- The state of reading: the options so far, the arguments given, an argument whose values
are not yet checked, the option waiting for its value, whether the positional argument was
given, and whether `--` was met. -/
structure ArgReader where
  options : Options
  given : List ArgName
  pending : Option (ArgName × List String)
  expecting : Option ArgName
  positionalTaken : Bool
  trailing : Bool
  deriving Inhabited

namespace ArgReader

/-- Nothing read yet. -/
def start : ArgReader :=
  ⟨⟨".", false, false, "pretty", none, false, false⟩, [], none, none, false, false⟩

/-- Records a complete argument with its values. -/
def apply (r : ArgReader) (name : ArgName) (values : List String) : Except ArgError ArgReader :=
  if name.takesValue && values.isEmpty then .error .invalidValue
  else match name with
  | .help => .error .displayHelp
  | .version => .error .displayVersion
  | _ =>
    if r.given.contains name then .error .argumentConflict
    else
      let v := values.headD ""
      if name.isPath && v.isEmpty then .error .invalidValue
      else
        let o := r.options
        let o := match name with
          | .path => { o with path := v }
          | .ascii => { o with ascii := true }
          | .grep => { o with grep := true }
          | .format => { o with format := v }
          | .config => { o with config := some v }
          | .noSearch => { o with noSearch := true }
          | .verbose => { o with verbose := true }
          | _ => o
        .ok { r with options := o, given := name :: r.given }

/-- Checks the argument whose values were still open. -/
def resolve (r : ArgReader) : Except ArgError ArgReader :=
  match r.pending with
  | none => .ok r
  | some (name, values) => { r with pending := none }.apply name values

/-- Completes the open argument, then records another. -/
def react (r : ArgReader) (name : ArgName) (values : List String) : Except ArgError ArgReader := do
  let r ← r.resolve
  let r ← r.apply name values
  pure { r with expecting := none }

/-- Opens an option whose value is to come. -/
def expect (r : ArgReader) (name : ArgName) : Except ArgError ArgReader := do
  let r ← r.resolve
  pure { r with pending := some (name, []), expecting := some name }

/-- Reads a positional word. -/
def positional (r : ArgReader) (word : String) : Except ArgError ArgReader := do
  if r.positionalTaken then throw .unknownArgument
  let r ← r.resolve
  pure { r with pending := some (.path, [word]), positionalTaken := true, expecting := none }

/-- Reads a word starting with `--`. -/
def long (r : ArgReader) (body : String) : Except ArgError ArgReader :=
  let cs := body.toList
  let name := String.ofList (cs.takeWhile (· != '='))
  let value : Option String :=
    if cs.contains '=' then some (String.ofList ((cs.dropWhile (· != '=')).drop 1)) else none
  match longArg? name with
  | none => .error .unknownArgument
  | some n =>
    if n.takesValue then
      match value with
      | some v => r.react n [v]
      | none => r.expect n
    else match value with
      | some _ => .error .tooManyValues
      | none => r.react n []

/-- Reads a group of short flags; an option takes the rest of the word as its value. -/
def short : List Char → ArgReader → Except ArgError ArgReader
  | [], r => .ok r
  | c :: rest, r =>
    match shortArg? c with
    | none => .error .unknownArgument
    | some n =>
      if !n.takesValue then do
        let r ← r.react n []
        short rest r
      else if rest.isEmpty then r.expect n
      else
        let v := match rest with
          | '=' :: more => more
          | _ => rest
        r.react n [String.ofList v]

/-- Reads one word. -/
def step (r : ArgReader) (word : String) : Except ArgError ArgReader :=
  if r.trailing then r.positional word
  else if word == "--" then .ok { r with trailing := true }
  else if word.startsWith "--" then r.long (word.drop 2).toString
  else if word.startsWith "-" && word != "-" then short (word.toList.drop 1) r
  else match r.expecting with
    | some n => .ok { r with pending := some (n, [word]), expecting := none }
    | none => r.positional word

/-- Reads the words in order. -/
def readAll : List String → ArgReader → Except ArgError ArgReader
  | [], r => .ok r
  | w :: ws, r => do
    let r ← r.step w
    readAll ws r

end ArgReader

/-- Reads the command line (without the command's own name). -/
def parseArgs (words : List String) : Except ArgError Options := do
  let r ← ArgReader.readAll words ArgReader.start
  let r ← r.resolve
  pure r.options

end Lineage.Cli
