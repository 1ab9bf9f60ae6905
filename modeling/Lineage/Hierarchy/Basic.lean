import Lineage.Symbol.Basic
/-!
The inheritance hierarchy of a project.

Each node stands for a type: a project node for a type declared in the project, or an
external node for a super type or parameter type that did not resolve, known only by its
written name and the hints given where it was referenced. Nodes are linked by parent and
child edges; methods of project types are attached to their owners, and each method
records the method of a super type it overrides and the methods that override it.

Nodes and methods are numbered in the order of their creation.
-/
namespace Lineage

/-- A type in the hierarchy. -/
structure TypeNode where
  name : String
  category : TypeCategory
  construct : String
  /-- The declaring symbol; none for an external node. -/
  symbol : Option Nat
  file : Option Nat
  parents : Array Nat := #[]
  children : Array Nat := #[]
  methods : Array Nat := #[]
  deriving Repr, Inhabited

/-- Whether a node stands for a type outside the project. -/
def TypeNode.isExternal (n : TypeNode) : Bool := n.symbol.isNone

/-- A parameter of a method node, with the node of its type, if it has one. -/
structure ParamNode where
  name : String
  type : Option Nat
  deriving Repr, DecidableEq, Inhabited

/-- What makes two methods interchangeable for overriding: the name and the node of each
parameter's type. Parameters without a type compare equal to one another. -/
structure Signature where
  name : String
  paramTypes : List (Option Nat)
  deriving Repr, DecidableEq, Inhabited

/-- A method of a project type. -/
structure MethodNode where
  name : String
  symbol : Nat
  owner : Nat
  params : List ParamNode
  overrides : Option Nat := none
  /-- The overriding methods, ascending. -/
  overriddenBy : List Nat := []
  deriving Repr, Inhabited

/-- The signature of a method node. -/
def MethodNode.signature (m : MethodNode) : Signature := ⟨m.name, m.params.map (·.type)⟩

/-- The type and method nodes of one project. -/
structure Hierarchy where
  types : Array TypeNode := #[]
  methods : Array MethodNode := #[]
  deriving Repr, Inhabited

namespace Hierarchy

/-- The node at an index (a default one past the end). -/
def node (h : Hierarchy) (i : Nat) : TypeNode := h.types[i]?.getD default

/-- The method at an index (a default one past the end). -/
def method (h : Hierarchy) (i : Nat) : MethodNode := h.methods[i]?.getD default

/-- The nodes at the top of a hierarchy: without parents and with children. -/
def roots (h : Hierarchy) : List Nat :=
  (List.range h.types.size).filter fun i =>
    let n := h.node i
    n.parents.isEmpty && !n.children.isEmpty

/-- The project nodes that take part in no inheritance. -/
def standalone (h : Hierarchy) : List Nat :=
  (List.range h.types.size).filter fun i =>
    let n := h.node i
    !n.isExternal && n.parents.isEmpty && n.children.isEmpty

/-- Searches parent edges from the pending nodes for `ancestor`, each node expanded once;
the fuel bounds the steps. -/
def reaches (h : Hierarchy) (ancestor : Nat) : Nat → List Nat → List Nat → Bool
  | 0, _, _ => false
  | _ + 1, [], _ => false
  | fuel + 1, next :: pending, seen =>
    if next == ancestor then true
    else if seen.contains next then reaches h ancestor fuel pending seen
    else reaches h ancestor fuel ((h.node next).parents.toList.reverse ++ pending) (next :: seen)

/-- Whether `ancestor` is reached from `i` by one or more parent edges. -/
def inheritsFrom (h : Hierarchy) (i ancestor : Nat) : Bool :=
  let edges := h.types.foldl (fun n t => n + t.parents.size) 0
  h.reaches ancestor (edges + h.types.size + 2) (h.node i).parents.toList.reverse []

end Hierarchy

end Lineage
