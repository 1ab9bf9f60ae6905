import Lineage.Java.Syntax
import Lineage.Overlay.Basic
import Lineage.Symbol.Basic
/-!
Scanning a Java file into the symbol tree.

Comments and literals are masked first, then the package and import declarations are
read and masked. Declarations are then found innermost first: each one found is recorded
and its whole match masked, which lets the declaration around it match next. Before a
type or anonymous class is taken, a `;`-terminated method header left inside its flat
body is taken first. When no declaration matches, one layer of plain `{ … }` blocks
(statement bodies, initialisers) is masked and the search goes on; when nothing at all is
left to mask, the scan ends. Each round masks at least one unmasked character, so the
number of rounds is bounded by the file's length.

A declaration found before its enclosing type waits among the file's top-level
declarations until that type is recorded; it is then moved below the type, and its
modifiers are widened to what the type implies: members of an interface are public unless
private, and its methods abstract unless static or default; members of other named types
without an access modifier are package-private. A method without return type named like
its named type is a constructor.
-/
namespace Lineage.Java

/-- A modifier as written in Java: `@Override` (also written `@java.lang.Override`, with
blanks anywhere) is the override marker, any other annotation is kept as written, and a
keyword names its modifier. -/
def modifierOf (text : String) : Modifier :=
  let t := Text.trim text
  match t.toList with
  | '@' :: rest =>
    let name := Text.dropBlanks (String.ofList rest)
    if name == "Override" || name == "java.lang.Override" then .override else .custom t
  | _ => Modifier.named t

/-- A parameter as read from a parameter list. -/
structure ParamDecl where
  name : String
  type : String
  modifiers : List String
  span : Span

/-- The three forms of declaration and what each one carries. -/
inductive DeclForm where
  | named (construct : String) (supers interfaces : List String)
  | anonymous (superType : Option String)
  | method (returnType : Option String) (params : List ParamDecl) (throws : List String)

/-- A declaration read out of a match, before the match is masked. -/
structure Decl where
  name : String
  span : Span
  typeParams : Option String
  modifiers : List String
  form : DeclForm

/-- The source texts of the modifiers in a group, trimmed, empty ones left out. -/
def modifierTexts (t : Overlay) (m : Match) (g : String) : List String :=
  match t.groupText m g with
  | some sub => ((sub.findAllSource modifierProgram).map Text.trim).filter (· != "")
  | none => []

/-- The types listed in a group, with their annotations masked out. -/
def typeNames (t : Overlay) (m : Match) (g : String) : List String :=
  match t.groupText m g with
  | some sub => ((sub.maskAll annotationProgram).1.findAllSource typeProgram).map Text.trim
  | none => []

/-- Reads the parameters of a parameter list from offset `pos` on; a match whose type
starts with a word that cannot start a type, or whose name is reserved, is skipped by one
character. Each step moves forward, so the text's length bounds the steps. -/
def paramsFrom (sub : Overlay) (base : Nat) : Nat → Nat → List ParamDecl
  | 0, _ => []
  | fuel + 1, pos =>
    match sub.findAt parameterProgram pos with
    | none => []
    | some p =>
      let ty := Text.trim ((sub.groupSource p "type").getD "")
      let name := (sub.groupSource p "name").getD ""
      if isReservedNonType (Scan.firstWord ty) || isReserved name then
        paramsFrom sub base fuel (sub.nextChar p.start)
      else
        let ty := if p.has "vararg" then ty ++ "..." else ty
        { name := name, type := ty, modifiers := modifierTexts sub p "modifiers",
          span := ⟨base + p.start, base + p.stop⟩ } :: paramsFrom sub base fuel p.stop

/-- The parameters listed in a group. -/
def parameters (t : Overlay) (m : Match) (g : String) : List ParamDecl :=
  match t.groupText m g, m.group? g with
  | some sub, some (start, _) => paramsFrom sub start (sub.size + 2) 0
  | _, _ => []

/-- Reads a declaration out of a match of `declaration`. Its span starts after the
match's leading blanks. -/
def Decl.ofMatch (t : Overlay) (m : Match) : Decl :=
  let whole := t.matchSource m
  let leading := whole.utf8ByteSize - (Text.trimStart whole).utf8ByteSize
  let span : Span := ⟨m.start + leading, m.stop⟩
  let owned := fun g => (t.groupSource m g).map Text.trim
  let (name, typeParams, form) :=
    if m.has "type" then
      (owned "typeName", owned "typeParams",
        DeclForm.named ((owned "construct").getD "class") (typeNames t m "extends")
          (typeNames t m "implements"))
    else if m.has "anon" then
      (none, none, DeclForm.anonymous (typeNames t m "superType").head?)
    else if m.has "method" then
      (owned "methodName", owned "methodTypeParams",
        DeclForm.method (owned "returnType") (parameters t m "params") (typeNames t m "throws"))
    else
      (owned "ctorName", owned "ctorTypeParams",
        DeclForm.method none (parameters t m "ctorParams") (typeNames t m "ctorThrows"))
  { name := name.getD "", span := span, typeParams := typeParams, modifiers := modifierTexts t m "modifiers", form }

/-- Whether a match names no reserved word where a name stands, and a method's return
type starts with a word that may start a type. -/
def isAcceptable (t : Overlay) (m : Match) : Bool :=
  match t.groupSource m "typeName" with
  | some name => !isReserved name
  | none =>
    match t.groupSource m "methodName" with
    | some name =>
      !isReserved name && !isReservedNonType (Scan.firstWord ((t.groupSource m "returnType").getD ""))
    | none =>
      match t.groupSource m "ctorName" with
      | some name => !isReserved name
      | none => true

/-- The offset of the last `{` among the bytes from `start` to `stop`. -/
def lastBrace (bs : ByteArray) (start stop : Nat) : Option Nat :=
  ((List.range (stop - start)).filter fun i => Utf8.byteAt bs (start + i) == 0x7B).getLast?

/-- Looks, from offset `pos` on, for an acceptable declaration inside the match `ty`. -/
def bodilessFrom (t : Overlay) (ty : Match) : Nat → Nat → Option Match
  | 0, _ => none
  | fuel + 1, pos =>
    match t.findAt declarationProgram pos with
    | none => none
    | some inner =>
      if ty.stop ≤ inner.start then none
      else if inner.stop ≤ ty.stop && isAcceptable t inner then some inner
      else bodilessFrom t ty fuel (t.nextChar inner.start)

/-- A `;`-terminated method header left inside the flat body of a type match: such a
header holds no braces, so it never keeps the type from matching, and it is taken before
the type masks it away. -/
def bodilessMember (t : Overlay) (ty : Match) : Option Match :=
  match lastBrace t.view ty.start ty.stop with
  | some i => bodilessFrom t ty (t.size + 2) (ty.start + i + 1)
  | none => none

/-- Looks, from offset `pos` on, for the first acceptable declaration. -/
def nextDeclarationFrom (t : Overlay) : Nat → Nat → Option Match
  | 0, _ => none
  | fuel + 1, pos =>
    match t.findAt declarationProgram pos with
    | none => none
    | some m =>
      if isAcceptable t m then
        if m.has "type" || m.has "anon" then
          match bodilessMember t m with
          | some inner => some inner
          | none => some m
        else some m
      else nextDeclarationFrom t fuel (t.nextChar m.start)

/-- The first acceptable declaration of the text. -/
def nextDeclaration (t : Overlay) : Option Match := nextDeclarationFrom t (t.size + 2) 0

/-- The state of scanning one file: the tree, the file's index and path, the number of
anonymous classes so far, and the declarations not yet known to lie inside another, by
start offset. -/
structure FileScan where
  tree : SymbolTree
  file : Nat
  path : String
  anonymous : Nat
  topLevel : List (Nat × Nat)

/-- Applies what the enclosing named type implies to a member moved below it. -/
def widenMember (tree : SymbolTree) (member : Nat) (construct : Option String)
    (typeName : String) : SymbolTree :=
  match construct with
  | none => tree
  | some c =>
    tree.modify member fun s =>
      let isMethod := s.methodInfo?.isSome
      let mods := s.modifiers
      let mods :=
        if c == "interface" then
          if mods.contains .privateAccess then mods
          else
            let mods := mods.insert .publicAccess
            if isMethod && !mods.contains .static && !mods.contains .default then
              mods.insert .abstract
            else mods
        else if mods.hasAccess then mods
        else mods.insert .packageAccess
      let kind := match s.kind with
        | .method info =>
          if info.returnType.isNone && s.name == typeName then
            SymbolKind.method { info with isConstructor := true }
          else s.kind
        | k => k
      { s with modifiers := mods, kind }

/-- Moves the waiting top-level declarations that lie inside a new declaration below it,
and makes the new declaration wait in their place. -/
def adoptMembers (st : FileScan) (id : Nat) (span : Span) (construct : Option String) :
    Except BuildError FileScan := do
  let members := (st.topLevel.filter fun (start, m) =>
    span.start < start && match (st.tree.get m).span with
      | some s => span.contains s
      | none => false).map (·.2)
  let typeName := (st.tree.get id).name
  let tree ← members.foldlM (fun tree member =>
    (widenMember tree member construct typeName).nest id member) st.tree
  let rest := st.topLevel.filter fun (_, m) => !members.contains m
  let topLevel := rest.takeWhile (·.1 < span.start) ++ [(span.start, id)] ++
    rest.dropWhile (·.1 < span.start)
  pure { st with tree, topLevel }

/-- Records a declaration in the tree. -/
def insert (st : FileScan) (d : Decl) : Except BuildError FileScan := do
  let (st, name, kind, named) := match d.form with
    | .named construct _ _ =>
      let category := if construct == "interface" then TypeCategory.interfaceType
        else .classType
      (st, d.name, SymbolKind.type { category, construct }, some construct)
    | .anonymous _ =>
      let n := st.anonymous + 1
      let line := ((st.tree.file? st.file).map fun (f : FileRecord) => f.lineOf d.span.start).getD 0
      let path := st.path
      ({ st with anonymous := n }, s!"[anonymous class #{n} at {path}:{line}]",
        SymbolKind.type { category := .classType, construct := "class" }, none)
    | .method .. => (st, d.name, SymbolKind.method {}, none)
  let (tree, id) := st.tree.alloc
    { name := name, file := some st.file, span := some d.span,
      modifiers := Modifiers.ofList (d.modifiers.map modifierOf), kind := kind,
      typeParams := d.typeParams }
  let parse := fun (text : String) (c : TypeCategory) => TypeRef.parse id text c none
  let kind := match d.form, kind with
    | .named construct ext impl, .type info =>
      let hint := if construct == "interface" then TypeCategory.interfaceType else .classType
      let info := ext.foldl (fun (i : TypeInfo) e => i.addSuper (parse e hint)) info
      SymbolKind.type (impl.foldl (fun (i : TypeInfo) e => i.addSuper (parse e .interfaceType)) info)
    | .anonymous (some s), .type info => .type (info.addSuper (parse s .otherType))
    | .method rt params throws, _ =>
      .method {
        returnType := rt.map (parse · .otherType)
        params := params.map fun (p : ParamDecl) =>
          { name := p.name, file := some st.file, span := some p.span,
            modifiers := Modifiers.ofList (p.modifiers.map modifierOf),
            type := some (parse p.type .otherType) }
        exceptions := throws.map (parse · .otherType) }
    | _, k => k
  let tree := tree.modify id fun s => { s with kind }
  adoptMembers { st with tree } id d.span named

/-- Records declarations until none is left and no plain block is left to mask; each round
masks at least one unmasked character, so the fuel is the text's length. -/
def declarations : Nat → Overlay → FileScan → Except BuildError FileScan
  | 0, _, st => pure st
  | fuel + 1, t, st =>
    match nextDeclaration t with
    | some m => do
      let st ← insert st (Decl.ofMatch t m)
      declarations fuel (t.mask m.start m.stop) st
    | none =>
      let (t, changed) := t.maskAll blockProgram
      if changed then declarations fuel t st else pure st

/-- The import rules of the import declarations. -/
def importRules (t : Overlay) : List ImportRule :=
  (t.findAll importProgram).filterMap fun m =>
    match t.groupSource m "name" with
    | none => none
    | some text =>
      let path := dottedParts text
      if m.has "wildcard" then some (.wildcard path .publicOnly) else ImportRule.named path none

/-- Scans a Java file at `path` into the tree; gives the tree and the file's index. -/
def scan (tree : SymbolTree) (path content : String) : Except BuildError (SymbolTree × Nat) := do
  let t := (Overlay.ofString content).maskAll literalProgram |>.1
  let package := (t.find packageProgram).map fun m =>
    (dottedParts ((t.groupSource m "name").getD ""), m.start, m.stop)
  let names := (package.map (·.1)).getD []
  let record := { (FileRecord.new path content) with
    package := if names.isEmpty then none else some (".".intercalate names) }
  let (tree, file) := tree.addFile record
  let (tree, parent) := if names.isEmpty then (tree, 0) else tree.packagePath 0 names "package"
  let (tree, scope) := tree.alloc
    { name := path, file := some file, span := some ⟨0, content.utf8ByteSize⟩, kind := .file }
  let tree ← tree.nest parent scope
  let t := match package with
    | some (_, a, b) => t.mask a b
    | none => t
  let tree := (importRules t).foldl (fun tree r => tree.addImport scope r)
    (tree.addImport scope .rootPackages)
  let t := (t.maskAll importProgram).1
  let st ← declarations (t.size + 1) t { tree, file, path, anonymous := 0, topLevel := [] }
  let tree ← st.topLevel.foldlM (fun tree (_, id) => tree.nest scope id) st.tree
  pure (tree, file)

end Lineage.Java
