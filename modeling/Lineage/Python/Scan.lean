import Lineage.Python.Syntax
import Lineage.Overlay.Basic
import Lineage.Symbol.Basic
/-!
Scanning a Python file into the symbol tree.

Comments and strings are masked first, and line continuations turned into spaces. The
file fills the module named by its path (a package's `__init__.py` fills the package).
Headers are then found top to bottom; only the header is masked, so the headers of nested
declarations are found on later rounds. A header's body ends with its own line when code
follows the colon there; otherwise it runs over each following line indented deeper than
the header, blank lines (also those left blank by masking) neither extending nor ending
it. Each header is nested in the most recently recorded declaration whose span still
contains its own, or else in the module. Imports are recorded last, on the innermost
declaration around them.
-/
namespace Lineage.Python

/-- Base lists that only mark a class abstract. -/
def abstractBases : List (List String) := [["ABC"], ["ABCMeta"], ["abc", "ABC"], ["abc", "ABCMeta"]]

/-- Where a file sits among packages: the directories of its path, and its module name, or
none for a package's `__init__.py`. -/
structure ModulePath where
  package : List String
  module : Option String

/-- The module path of a file path: parts split at `/` and `\`, empty and `.` parts left
out, the last part the file name, whose stem without `.py` is the module. -/
def ModulePath.ofPath (path : String) : ModulePath :=
  let parts := ((splitAt '/' path.toList).flatMap (splitAt '\\')).map String.ofList
    |>.filter fun p => p != "" && p != "."
  let fileName := parts.getLast?.getD ""
  let stem := if fileName.endsWith ".py" then
      String.ofList (fileName.toList.take (fileName.length - 3))
    else fileName
  ⟨parts.dropLast, if stem == "__init__" then none else some stem⟩

/-- The package or module this file fills, created as needed. -/
def ModulePath.scope (loc : ModulePath) (tree : SymbolTree) : SymbolTree × Nat :=
  let (tree, pkg) := tree.packagePath 0 loc.package "package"
  match loc.module with
  | some m => tree.packageChild pkg m "module"
  | none => (tree, pkg)

/-- The absolute path of a `from` clause with `dots` leading dots: each dot after the first
climbs one package up; none when it climbs past the root. -/
def ModulePath.absolute (loc : ModulePath) (dots : Nat) (names : List String) :
    Option (List String) :=
  if dots == 0 then some names
  else if dots - 1 ≤ loc.package.length then
    some (loc.package.take (loc.package.length - (dots - 1)) ++ names)
  else none

/-- Whether a line holds only masked and blank characters. -/
def isBlankLine (line : String) : Bool :=
  line.toList.all fun c => c == Char.ofNat 0x1a || Text.isBlank c

/-- The offset of the next line feed at or after `i`, or the end. -/
def lineEnd (bs : ByteArray) (i : Nat) : Nat :=
  go (bs.size - i + 1) i
where
  go : Nat → Nat → Nat
    | 0, j => j
    | fuel + 1, j => if bs.size ≤ j || Utf8.byteAt bs j == 10 then min j bs.size else go fuel (j + 1)

/-- Whether a line is indented deeper than a header with indentation `indent`: it starts
with `indent` followed by a space or a tab. -/
def isDeeper (line indent : String) : Bool :=
  indent.isPrefixOf line &&
    match (line.toList.drop indent.length).head? with
    | some c => c == ' ' || c == '\t'
    | none => false

/-- Walks the lines after offset `pos` (a line feed or the end): blank lines are passed
over, a deeper line extends the body to its end, any other line ends the walk. -/
def bodyLines (bs : ByteArray) (indent : String) : Nat → Nat → Nat → Nat
  | 0, _, stop => stop
  | fuel + 1, pos, stop =>
    if pos < bs.size then
      let start := pos + 1
      let next := lineEnd bs start
      let line := Utf8.slice bs start next
      if isBlankLine line then bodyLines bs indent fuel next stop
      else if isDeeper line indent then bodyLines bs indent fuel next next
      else stop
    else stop

/-- The end of a declaration's body, given the end of its header; see the module
comment. -/
def bodyEnd (bs : ByteArray) (headerEnd : Nat) (indent : String) : Nat :=
  let firstEnd := lineEnd bs headerEnd
  if !isBlankLine (Utf8.slice bs headerEnd firstEnd) then firstEnd
  else bodyLines bs indent (bs.size + 1) firstEnd firstEnd

/-- The modifier a decorator line stands for: `abstractmethod`, `classmethod`,
`staticmethod`, `final` and `override` (also under their module prefixes) are known; any
other decorator is kept as written. -/
def decoratorModifier (line : String) : Modifier :=
  let line := Text.trim line
  let afterAt := line.toList.dropWhile (· == '@')
  let name := Text.dropBlanks (String.ofList (afterAt.takeWhile (· != '(')))
  match name with
  | "abstractmethod" | "abc.abstractmethod" => .abstract
  | "classmethod" => .classMethod
  | "staticmethod" => .static
  | "final" | "typing.final" => .final
  | "override" | "typing.override" => .override
  | _ => .custom line

/-- A base class or metaclass entry of a class header. -/
structure BaseDecl where
  display : String
  names : List String
  isMeta : Bool

/-- A parameter as read from a parameter list. -/
structure ParamDecl where
  name : String
  type : Option String
  defaultValue : Option String
  span : Span

/-- What a header declares. -/
inductive HeaderForm where
  | classHeader (bases : List BaseDecl)
  | function (params : List ParamDecl) (returnType : Option String)

/-- A header read out of a match. -/
structure Header where
  name : String
  start : Nat
  indent : String
  decorators : List String
  form : HeaderForm

/-- The parameter list with every nested bracket and lambda masked, so that its visible
commas separate entries. -/
def censoredParams (t : Overlay) (m : Match) : Option Overlay :=
  (t.groupText m "params").map (·.maskRepeatedly censorProgram)

/-- The base list entries of a class header; keyword arguments and starred entries are
left out. -/
def bases (t : Overlay) (m : Match) : List BaseDecl :=
  match censoredParams t m with
  | none => []
  | some sub =>
    (sub.findAll baseProgram).filterMap fun e =>
      let isMeta := e.has "meta"
      let visible := (sub.groupView e "main").getD ""
      if !isMeta && (visible.toList.contains '=' ||
          (Text.trimStart visible).startsWith "*") then none
      else
        match sub.groupSource e "main" with
        | none => none
        | some main =>
          let display := Text.trim main
          let names := dottedParts display
          if names.isEmpty then none else some ⟨display, names, isMeta⟩

/-- The parameters of a function header. -/
def parameters (t : Overlay) (m : Match) : List ParamDecl :=
  match censoredParams t m, m.group? "params" with
  | some sub, some (base, _) =>
    (sub.findAll parameterProgram).filterMap fun p =>
      (sub.groupSource p "name").map fun name =>
        { name := name, type := (sub.groupSource p "type").map Scan.decodeType,
          defaultValue := (sub.groupSource p "defaultValue").map Text.trim,
          span := ⟨base + p.start, base + p.stop⟩ }
  | _, _ => []

/-- Reads a header out of a match of `declaration`. -/
def Header.ofMatch (t : Overlay) (m : Match) : Header :=
  let decorators := match t.groupSource m "decorators" with
    | some text => ((splitAt '\n' text.toList).map fun l => Text.trim (String.ofList l)).filter (· != "")
    | none => []
  let form := if t.groupSource m "kind" == some "class" then HeaderForm.classHeader (bases t m)
    else .function (parameters t m) ((t.groupSource m "returnType").map Scan.decodeType)
  { name := (t.groupSource m "name").getD "", start := m.start,
    indent := (t.groupView m "indent").getD "", decorators := decorators, form := form }

/-- The state of scanning one file: the tree, the file's index, the declarations whose
bodies may still hold the next header (outermost first), and all recorded ones. -/
structure ModuleScan where
  tree : SymbolTree
  file : Nat
  enclosing : List (Nat × Span)
  recorded : List (Nat × Span)

/-- Drops open declarations from the top while their span does not contain `span`,
keeping the bottom one. -/
def closeScopes (span : Span) : List (Nat × Span) → List (Nat × Span)
  | [] => []
  | [bottom] => [bottom]
  | (id, top) :: rest =>
    if top.stop ≤ span.start || !top.contains span then closeScopes span rest
    else (id, top) :: rest

/-- Records a header whose body spans `span`. The open list is kept innermost first. -/
def insert (st : ModuleScan) (h : Header) (span : Span) : Except BuildError ModuleScan := do
  let openScopes := closeScopes span st.enclosing
  let parent := (openScopes.head?.map (·.1)).getD 0
  let inClass := (st.tree.get parent).isType
  let modifiers := Modifiers.ofList (h.decorators.map decoratorModifier)
  let isStatic := modifiers.contains .static
  let (tree, id) := st.tree.alloc
    { name := h.name, file := some st.file, span := some span, modifiers := modifiers,
      kind := .file }
  let hinted := fun (text : String) => TypeRef.parse id text .classType (some "class")
  let tree := match h.form with
    | .classHeader bs =>
      let info : TypeInfo := { category := .classType, construct := "class" }
      let (info, abstractBase) := bs.foldl (fun ((info : TypeInfo), abs) (b : BaseDecl) =>
        let isAbc := abstractBases.contains b.names
        let r : TypeRef :=
          { name := { scope := id, names := b.names, display := b.display },
            category := .classType, constructHint := some "class" }
        let info := if b.isMeta then { info with metaType := some r }
          else if isAbc then info else info.addSuper r
        (info, abs || isAbc)) (info, false)
      let tree := tree.modify id fun s => { s with kind := .type info }
      if abstractBase then tree.addModifier id .abstract else tree
    | .function params rt =>
      let ps := params.zipIdx.map fun ((p : ParamDecl), i) =>
        { name := p.name, file := some st.file, span := some p.span,
          type := p.type.map hinted, defaultValue := p.defaultValue,
          implicit := i == 0 && inClass && !isStatic : Param }
      let info : MethodInfo :=
        { returnType := rt.map hinted, isConstructor := inClass && h.name == "__init__",
          params := ps }
      tree.modify id fun s => { s with kind := .method info }
  let tree ← tree.nest parent id
  pure
    { st with tree := tree, enclosing := (id, span) :: openScopes,
              recorded := st.recorded ++ [(id, span)] }

/-- Records headers top to bottom until none is left; each round masks a header, so the
text's length bounds the rounds. -/
def headers : Nat → Overlay → ModuleScan → Except BuildError (Overlay × ModuleScan)
  | 0, t, st => pure (t, st)
  | fuel + 1, t, st =>
    match t.find declarationProgram with
    | none => pure (t, st)
    | some m => do
      let h := Header.ofMatch t m
      let stop := bodyEnd t.view m.stop h.indent
      let st ← insert st h ⟨h.start, stop⟩
      headers fuel (t.mask h.start m.stop) st

/-- The recorded declaration with the shortest span around an offset, the first of equals. -/
def innermost (recorded : List (Nat × Span)) (pos : Nat) : Option Nat :=
  let around := recorded.filter fun (_, s) => s.start ≤ pos && pos < s.stop
  (around.foldl (fun best (id, s) =>
    match best with
    | some (_, len) => if s.stop - s.start < len then some (id, s.stop - s.start) else best
    | none => some (id, s.stop - s.start)) none).map (·.1)

/-- The import rules of one import statement. -/
def statementRules (t : Overlay) (loc : ModulePath) (m : Match) : List ImportRule :=
  let isFrom := m.has "relative"
  let dots := ((t.groupSource m "relative").map String.length).getD 0
  let fromNames := ((t.groupSource m "from").map dottedParts).getD []
  let base := if isFrom then
      match loc.absolute dots fromNames with
      | some b => if b.isEmpty then none else some (some b)
      | none => none
    else some none
  match base with
  | none => []
  | some base =>
    if m.has "star" then
      match base with
      | some path => [.wildcard path .notUnderscored]
      | none => []
    else
      let g := if m.has "plist" then "plist" else "list"
      match t.groupText m g with
      | none => []
      | some list =>
        (list.findAll elementProgram).filterMap fun e =>
          match list.groupSource e "source" with
          | none => none
          | some source =>
            let names := dottedParts source
            let localName := list.groupSource e "alias"
            match base with
            | some b => ImportRule.named (b ++ names) localName
            | none => if localName.isSome then ImportRule.named names localName else ImportRule.qualified names

/-- Scans a Python file at `path` into the tree; gives the tree and the file's index. -/
def scan (tree : SymbolTree) (path content : String) : Except BuildError (SymbolTree × Nat) := do
  let t := ((Overlay.ofString content).maskAll literalProgram).1
  let t := (t.maskAllWith continuationProgram ' ').1
  let (tree, file) := tree.addFile (FileRecord.new path content)
  let loc := ModulePath.ofPath path
  let (tree, module) := loc.scope tree
  let whole : Span := ⟨0, content.utf8ByteSize⟩
  let tree := tree.setLocation module file whole
  let (t, st) ← headers (t.size + 1) t
    { tree := tree, file := file, enclosing := [(module, whole)], recorded := [] }
  let tree := (t.findAll importProgram).foldl (fun tree m =>
    let scope := (innermost st.recorded m.start).getD module
    (statementRules t loc m).foldl (fun tree r => tree.addImport scope r) tree) st.tree
  pure (tree, file)

end Lineage.Python
