import Lineage.Hierarchy.Basic
import Lineage.Symbol.Resolve
/-!
Building the hierarchy of a symbol tree.

Every type symbol, in the tree's pre-order, becomes a project node. Then each of those
nodes is linked below the node of each of its super types: the first type the super type's
name resolves to, or else an external node shared by all references with the same written
name. Self links and repeated links are skipped. Methods other than constructors are then
attached to the project nodes, each non-implicit parameter with the node of its type.

Overrides are found by walking down from each root along child edges with the methods
passed down on that path, keyed by signature: a method that is neither private nor static
overrides the method passed down under its signature, and passes itself on unless it is
final. Each child receives its own copy of what is passed down, so a type reached along
several paths gets overrides from each of them, and a node already on the path is cut off,
which ends the walk on cyclic hierarchies.
-/
namespace Lineage

/-- The state of building: the hierarchy so far, the node of each type symbol, and the
external nodes by written name. -/
structure HierarchyBuild where
  graph : Hierarchy := {}
  nodeOf : Array (Option Nat)
  externals : List (String × Nat) := []

namespace HierarchyBuild

/-- Appends a node; gives its index. -/
def push (b : HierarchyBuild) (n : TypeNode) : HierarchyBuild × Nat :=
  ({ b with graph := { b.graph with types := b.graph.types.push n } }, b.graph.types.size)

/-- The project node of a symbol, created on first use. -/
def projectNode (tree : SymbolTree) (b : HierarchyBuild) (id : Nat) : HierarchyBuild × Nat :=
  match (b.nodeOf[id]?).getD none with
  | some n => (b, n)
  | none =>
    let s := tree.get id
    let (category, construct) := match s.kind with
      | .type t => (t.category, t.construct)
      | _ => (TypeCategory.otherType, s.construct)
    let (b, n) := b.push { name := s.name, category, construct, symbol := some id, file := s.file }
    ({ b with nodeOf := b.nodeOf.setIfInBounds id (some n) }, n)

/-- The node a type reference stands for: the first type it resolves to, or else the
external node of its written name. -/
def typeNode (tree : SymbolTree) (b : HierarchyBuild) (r : TypeRef) : HierarchyBuild × Nat :=
  match (r.resolve tree).head? with
  | some id => b.projectNode tree id
  | none =>
    match b.externals.lookup r.display with
    | some n => (b, n)
    | none =>
      let (b, n) := b.push
        { name := r.display, category := r.category, construct := r.construct,
          symbol := none, file := none }
      ({ b with externals := b.externals ++ [(r.display, n)] }, n)

/-- Links `child` below `parent`, unless they are one node or already linked. -/
def link (b : HierarchyBuild) (parent child : Nat) : HierarchyBuild :=
  if parent == child || (b.graph.node child).parents.contains parent then b
  else
    let types := b.graph.types.modify child fun n => { n with parents := n.parents.push parent }
    let types := types.modify parent fun n => { n with children := n.children.push child }
    { b with graph := { b.graph with types } }

/-- Links a project node below the nodes of its super types. -/
def linkSupers (tree : SymbolTree) (b : HierarchyBuild) (i : Nat) : HierarchyBuild :=
  match (b.graph.node i).symbol with
  | none => b
  | some id =>
    match (tree.get id).typeInfo? with
    | none => b
    | some info =>
      info.supers.foldl (fun b r =>
        let (b, parent) := b.typeNode tree r
        b.link parent i) b

/-- Attaches the methods of a project node's symbol, constructors left out. -/
def attachMethods (tree : SymbolTree) (b : HierarchyBuild) (owner : Nat) : HierarchyBuild :=
  match (b.graph.node owner).symbol with
  | none => b
  | some id =>
    (tree.get id).children.foldl (fun b member =>
      let s := tree.get member
      match s.methodInfo? with
      | none => b
      | some info =>
        if info.isConstructor then b
        else
          let (b, params) := (info.params.filter (!·.implicit)).foldl (fun (b, ps) p =>
            match p.type with
            | some ty =>
              let (b, n) := b.typeNode tree ty
              (b, ps ++ [({ name := p.name, type := some n } : ParamNode)])
            | none => (b, ps ++ [{ name := p.name, type := none }])) (b, [])
          let m : MethodNode := { name := s.name, symbol := member, owner, params }
          let k := b.graph.methods.size
          let types := b.graph.types.modify owner fun n => { n with methods := n.methods.push k }
          { b with graph := { types, methods := b.graph.methods.push m } }) b

end HierarchyBuild

namespace Hierarchy

/-- Records that method `m` overrides method `o`. -/
def setOverride (h : Hierarchy) (m o : Nat) : Hierarchy :=
  let methods := h.methods.modify m fun x => { x with overrides := some o }
  let methods := methods.modify o fun x =>
    { x with overriddenBy := if x.overriddenBy.contains m then x.overriddenBy
        else (x.overriddenBy ++ [m]).mergeSort (· ≤ ·) }
  { h with methods }

/-- Walks down from node `ty` with the methods passed down along `path`; the fuel bounds
the depth, which the path's distinct nodes bound as well. -/
def findOverrides (tree : SymbolTree) :
    Nat → Hierarchy → Nat → List (Signature × Nat) → List Nat → Hierarchy
  | 0, h, _, _, _ => h
  | fuel + 1, h, ty, inherited, path =>
    if path.contains ty then h
    else
      let node := h.node ty
      let (h, passed) := node.methods.foldl (fun (h, passed) m =>
        let mn := h.method m
        let s := tree.get mn.symbol
        if s.has .privateAccess || s.has .static then (h, passed)
        else
          let sig := mn.signature
          let h := match inherited.lookup sig with
            | some o => h.setOverride m o
            | none => h
          let passed := if s.has .final then passed
            else (sig, m) :: passed.filter (·.1 != sig)
          (h, passed)) (h, inherited)
      node.children.foldl (fun h child =>
        findOverrides tree fuel h child passed (ty :: path)) h

end Hierarchy

/-- The hierarchy of a symbol tree; a type symbol met twice in the walk is refused. -/
def SymbolTree.hierarchy (tree : SymbolTree) : Except BuildError Hierarchy := do
  let start : HierarchyBuild := { nodeOf := Array.replicate tree.size none }
  let b ← (tree.walk .type).foldlM (fun (b : HierarchyBuild) id =>
    if ((b.nodeOf[id]?).getD none).isSome then .error (.duplicateType (tree.qualifiedName id))
    else pure (b.projectNode tree id).1) start
  let added := b.graph.types.size
  let b := (List.range added).foldl (fun b i => b.linkSupers tree i) b
  let b := (List.range b.graph.types.size).foldl (fun b i => b.attachMethods tree i) b
  let h := b.graph
  pure (h.roots.foldl (fun h r => h.findOverrides tree (h.types.size + 1) r [] []) h)

end Lineage
