import Lineage.Corpus
import Lineage.Report.Search
/-!
The inheritance trees of a codebase, drawn as text.

After a heading with the language and the numbers of files and types, each root is drawn
with its descendants below it, children in the order they were linked, joined by box
drawing lines (or ASCII lines). A type with more parents than the one it is drawn under
lists the others above it. A type met again on the path from its root is drawn once more,
marked `[cycle]`, and not followed. Below each type its methods stand in aligned columns:
modifiers, type parameters, return type, and the name with the types of the parameters;
private methods are only counted. Types without any inheritance follow in a section of
their own, when asked for.
-/
namespace Lineage

/-- The characters that draw the tree's lines. -/
structure TreeChars where
  vertical : Char
  intersect : Char
  corner : Char
  horizontal : Char
  dotted : Char

/-- Box drawing characters. -/
def TreeChars.unicode : TreeChars := ⟨'│', '├', '└', '─', '┊'⟩

/-- ASCII characters. -/
def TreeChars.ascii : TreeChars := ⟨'|', '+', '\\', '-', '|'⟩

/-- What the drawing shows: ASCII lines instead of box drawing, and the section of types
without inheritance. -/
structure TreeOptions where
  ascii : Bool := false
  showStandalone : Bool := true

/-- The indentation of one level. -/
def treeIndent : String := "    "

/-- A modifier as shown in the tree: arguments between the first `(` and the last `)` are
elided to `()`, and blanks are removed. -/
def modifierLabel (m : Modifier) : String :=
  let cs := m.text.toList
  let opening := cs.findIdx? (· == '(')
  let closing := (cs.reverse.findIdx? (· == ')')).map fun k => cs.length - 1 - k
  let shown := match opening, closing with
    | some o, some c => if o < c then cs.take o ++ ['(', ')'] ++ cs.drop (c + 1) else cs
    | _, _ => cs
  String.ofList (shown.filter fun c => !Text.isBlank c)

/-- `s` after a count other than one. -/
def plural (n : Nat) : String := if n == 1 then "" else "s"

/-- A text of `n` spaces. -/
def spaces (n : Nat) : String := "".pushn ' ' n

/-- One method line before it is padded into columns. -/
structure MethodRow where
  modifiers : List Modifier
  typeParams : String
  returnType : String
  name : String
  params : List String
  overriddenIn : List String

namespace MethodRow

/-- The width of the modifiers, each followed by a space. -/
def modifierWidth (r : MethodRow) : Nat :=
  (r.modifiers.map fun m => (modifierLabel m).length + 1).foldr (· + ·) 0

/-- The width of `name(params)` and one space. -/
def signatureWidth (r : MethodRow) : Nat :=
  r.name.length + 2 + (", ".intercalate r.params).length + 1

end MethodRow

/-- The width of a column holding the text: its length and a space, or nothing. -/
def columnWidth (s : String) : Nat := if s.isEmpty then 0 else s.length + 1

/-- A line that is only a prefix, without its trailing blanks. -/
def blankLine (prefixText : String) : String := Text.trimEnd prefixText ++ "\n"

/-- Sorts strings. -/
def sortStrings (xs : List String) : List String := xs.mergeSort fun a b => a ≤ b

/-- A type's methods in the order they are shown: by name, and equal names by index. -/
def sortMethods (h : Hierarchy) (ms : List Nat) : List Nat :=
  ms.mergeSort fun a b =>
    let x := (h.method a).name
    let y := (h.method b).name
    x < y || (x == y && a ≤ b)

/-- Whether a method is private; private methods are only counted. -/
def isPrivateMethod (tree : SymbolTree) (h : Hierarchy) (m : Nat) : Bool :=
  (tree.get (h.method m).symbol).has .privateAccess

/-- The row of a method: its modifiers with `override` added when it overrides another and
`public` left out, its type parameters and return type, its name, the types of its
parameters (or their names), and the sorted names of the types whose methods override it. -/
def methodRow (tree : SymbolTree) (h : Hierarchy) (m : Nat) : MethodRow :=
  let mn := h.method m
  let s := tree.get mn.symbol
  let mods := if mn.overrides.isSome then s.modifiers.insert .override else s.modifiers
  let mods := mods.erase .publicAccess
  { modifiers := mods.toList, typeParams := s.typeParams.getD "",
    returnType := ((s.methodInfo?.bind (·.returnType)).map (·.display)).getD "",
    name := mn.name,
    params := mn.params.map fun p => match p.type with
      | some t => (h.node t).name
      | none => p.name,
    overriddenIn := sortStrings (mn.overriddenBy.map fun o => (h.node (h.method o).owner).name) }

/-- One method taken into the block: a private one is counted, any other adds its row. -/
def addMethodRow (tree : SymbolTree) (h : Hierarchy) (acc : Nat × List MethodRow) (m : Nat) :
    Nat × List MethodRow :=
  if isPrivateMethod tree h m then (acc.1 + 1, acc.2) else (acc.1, acc.2 ++ [methodRow tree h m])

/-- The number of private methods among `ms`, and the rows of the others in order. -/
def methodRows (tree : SymbolTree) (h : Hierarchy) (ms : List Nat) : Nat × List MethodRow :=
  ms.foldl (addMethodRow tree h) (0, [])

/-- The widths of the columns of a block of rows. -/
structure ColumnWidths where
  modifiers : Nat
  typeParams : Nat
  returnType : Nat
  signature : Nat

/-- The widest modifiers, type parameters, return type and `name(params)` with a space, over
the rows. -/
def ColumnWidths.ofRows (rows : List MethodRow) : ColumnWidths where
  modifiers := (rows.map (·.modifierWidth)).foldl max 0
  typeParams := (rows.map fun r => columnWidth r.typeParams).foldl max 0
  returnType := (rows.map fun r => columnWidth r.returnType).foldl max 0
  signature := (rows.map (·.signatureWidth)).foldl max 0

/-- A row padded into columns of the given widths, before its trailing blanks are trimmed. -/
def MethodRow.line (w : ColumnWidths) (prefixText : String) (r : MethodRow) : String :=
  let line := prefixText ++ String.join (r.modifiers.map fun m => modifierLabel m ++ " ") ++
    spaces (w.modifiers - r.modifierWidth) ++ r.typeParams ++
    spaces (w.typeParams - r.typeParams.length) ++
    r.returnType ++ spaces (w.returnType - r.returnType.length) ++
    r.name ++ "(" ++ ", ".intercalate r.params ++ ")"
  if r.overriddenIn.isEmpty then line
  else line ++ spaces (w.signature - (r.signatureWidth - 1)) ++ "[overridden in " ++
    ", ".intercalate r.overriddenIn ++ "]"

/-- The lines of a type's methods, each starting with `prefixText`. -/
def methodLines (tree : SymbolTree) (h : Hierarchy) (prefixText : String) (ty : Nat) : String :=
  let n := h.node ty
  if n.methods.isEmpty then
    prefixText ++ (if n.isExternal then "[methods unknown]" else "[no methods]") ++ "\n"
  else
    let (privateCount, rows) := methodRows tree h (sortMethods h n.methods.toList)
    let w := ColumnWidths.ofRows rows
    (if rows.isEmpty then "" else blankLine prefixText) ++
      String.join (rows.map fun r => Text.trimEnd (r.line w prefixText) ++ "\n") ++
      (if privateCount > 0 then
        prefixText ++ "[" ++ toString privateCount ++ " private method" ++ plural privateCount ++ "]\n"
      else "")

/-- The lines of a type and what hangs below it; the fuel bounds the depth, which the path's
distinct types bound as well. -/
def nodeLines (tree : SymbolTree) (h : Hierarchy) (chars : TreeChars) :
    Nat → String → String → String → Nat → Option Nat → List Nat → String
  | 0, _, _, _, _, _, _ => ""
  | fuel + 1, above, connecting, below, ty, parent, path =>
    let n := h.node ty
    let head := blankLine above
    if path.contains ty then head ++ connecting ++ n.construct ++ " " ++ n.name ++ " [cycle]\n"
    else
      let others := n.parents.toList.filter fun p => some p != parent
      let othersText := if others.isEmpty then ""
        else blankLine above ++ String.join ((sortByName h others).map fun o =>
            above ++ (h.node o).construct ++ " " ++ (h.node o).name ++ "\n") ++
          above ++ chars.dotted.toString ++ "\n"
      let sym := n.symbol.map tree.get
      let mods := match sym with
        | some s => String.join ((s.modifiers.toList.filter (· != .publicAccess)).map fun m =>
            modifierLabel m ++ " ")
        | none => ""
      let title := connecting ++ mods ++ n.construct ++ " " ++ n.name ++
        ((sym.bind (·.typeParams)).getD "") ++ (if n.isExternal then " [external]" else "") ++ "\n"
      let vertical := chars.vertical.toString ++ "   "
      let children := n.children.toList
      let methodPrefix := if children.isEmpty then below ++ treeIndent else below ++ vertical
      let childText := String.join (children.zipIdx.map fun (child, i) =>
        let isLast := i + 1 == children.length
        let stroke := if isLast then chars.corner else chars.intersect
        let nextBelow := if isLast then below ++ treeIndent else below ++ vertical
        nodeLines tree h chars fuel (below ++ vertical)
          (below ++ String.ofList [stroke, chars.horizontal, chars.horizontal, ' ']) nextBelow
          child (some ty) (ty :: path))
      head ++ othersText ++ title ++ methodLines tree h methodPrefix ty ++ childText

/-- The drawing of a codebase's hierarchy. -/
def treeReport (cb : Codebase) (h : Hierarchy) (opts : TreeOptions) : String :=
  let tree := cb.tree
  let chars := if opts.ascii then TreeChars.ascii else TreeChars.unicode
  let count := h.types.size
  let heading := "\n" ++ cb.language.displayName ++ " (" ++ toString cb.fileCount ++ " file" ++
    plural cb.fileCount ++ ", " ++ toString count ++ " type" ++ plural count ++ ")\n\n"
  let draw := fun ty => nodeLines tree h chars (count + 1) treeIndent treeIndent treeIndent ty none [] ++ "\n"
  let roots := sortByName h h.roots
  let treesText := if roots.isEmpty then "No inheritance found\n"
    else "Inheritance tree(s)\n" ++
      "(Note: subclasses will appear multiple times if using multiple inheritance.)\n" ++
      String.join (roots.map draw)
  let standalone := sortByName h h.standalone
  let standaloneText := if opts.showStandalone && !standalone.isEmpty then
      "Types without inheritance (no super/subclasses)\n" ++ String.join (standalone.map draw)
    else ""
  heading ++ treesText ++ standaloneText

end Lineage
