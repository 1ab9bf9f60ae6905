import Lineage.Report.JsonValue
import Lineage.Corpus
/-!
The report as data: for each codebase, its language, its number of files, and every node
of its hierarchy with its name, dotted name, construct, category, file, type parameters,
modifiers, the names of its parents and children, and its methods with their modifiers,
return type, parameters, and the methods they override and are overridden by, written as
`Owner.method`. Members that are absent are left out of a type; a method's absent return
type and override are written as null.
-/
namespace Lineage

/-- The version written into reports. -/
def reportVersion : String := "0.1.0"

/-- `Owner.method` for a method node. -/
def Hierarchy.methodLabel (h : Hierarchy) (m : Nat) : String :=
  let mn := h.method m
  (h.node mn.owner).name ++ "." ++ mn.name

/-- The data of one method node. -/
def methodData (tree : SymbolTree) (h : Hierarchy) (m : Nat) : JsonValue :=
  let mn := h.method m
  let s := tree.get mn.symbol
  .obj [
    ("name", .str mn.name),
    ("modifiers", .strs s.modifiers.texts),
    ("return_type", .ofOption ((s.methodInfo?.bind (·.returnType)).map (·.display))),
    ("parameters", .arr (mn.params.map fun p =>
      .obj [("name", .str p.name), ("type", .ofOption (p.type.map fun t => (h.node t).name))])),
    ("overrides", .ofOption (mn.overrides.map h.methodLabel)),
    ("overridden_by", .strs (mn.overriddenBy.map h.methodLabel))]

/-- The data of one type node. -/
def typeData (tree : SymbolTree) (h : Hierarchy) (i : Nat) : JsonValue :=
  let n := h.node i
  let sym := n.symbol.map tree.get
  let optional := fun (key : String) (v : Option String) =>
    match v with
    | some s => [(key, JsonValue.str s)]
    | none => []
  .obj ([("name", .str n.name)] ++
    optional "qualified_name" (n.symbol.map tree.qualifiedName) ++
    [("construct", .str n.construct), ("category", .str n.category.label),
     ("external", .bool n.isExternal)] ++
    optional "file" ((n.file.bind tree.file?).map (·.path)) ++
    optional "type_params" (sym.bind (·.typeParams)) ++
    [("modifiers", .strs ((sym.map (·.modifiers.texts)).getD [])),
     ("parents", .strs (n.parents.toList.map fun p => (h.node p).name)),
     ("children", .strs (n.children.toList.map fun c => (h.node c).name)),
     ("methods", .arr (n.methods.toList.map (methodData tree h)))])

/-- The report of codebases with their hierarchies, for the scanned `path`. -/
def reportData (path : String) (projects : List (Codebase × Hierarchy)) : JsonValue :=
  .obj [
    ("version", .str reportVersion),
    ("path", .str path),
    ("languages", .arr (projects.map fun (cb, h) =>
      .obj [("language", .str cb.language.id), ("files", .num cb.fileCount),
        ("types", .arr ((List.range h.types.size).map (typeData cb.tree h)))]))]

end Lineage
