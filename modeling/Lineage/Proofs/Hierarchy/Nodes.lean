import Lineage.Hierarchy.Build
import Lineage.Proofs.Hierarchy.Resolve
/-!
Building a hierarchy: its nodes and edges.

A build state grows by three operations: `push` appends a node, `typeNode` finds or makes the
node a type reference stands for, and `link` adds a parent edge with its child edge. Each of
them keeps the invariant `Grown`, with `n` the number of types the walk meets:

* the first `n` nodes are the project nodes of the walk, in its order, and the table of
  project nodes points at them;
* every later node is external: no symbol, no parents, and listed among the externals under
  its own name, which no other external has;
* parent and child edges agree, are never repeated and never join a node to itself
  (`Hierarchy.Edges`).

Registering the walk builds the first `n` nodes (`Grown.register`), and linking the project
nodes to their super types keeps `Grown` (`Grown.linkSupers`). A type reference gets the node
of the first type it resolves to, or else the external node of its written name
(`Hierarchy.NodeFor`); since a name resolves only to types of the walk
(`TypeRef.mem_walk_of_mem_resolve`), which have their nodes from the start, no project node
is made after registration.
-/
namespace Lineage

open SymbolTree

/-- An invariant of a left fold that may speak of the part of the list already folded. -/
theorem foldl_induction {α β : Type} {P : List α → β → Prop} {f : β → α → β} (l : List α)
    {b : β} (h : P [] b)
    (step : ∀ pre x rest b, pre ++ x :: rest = l → P pre b → P (pre ++ [x]) (f b x)) :
    P l (l.foldl f b) := by
  suffices ∀ rest pre b, pre ++ rest = l → P pre b → P l (rest.foldl f b) from this l [] b rfl h
  intro rest
  induction rest with
  | nil =>
    intro pre b hl hb
    rw [List.append_nil] at hl
    exact hl ▸ hb
  | cons x rest ih =>
    intro pre b hl hb
    exact ih (pre ++ [x]) (f b x) (by rw [List.append_assoc]; exact hl) (step pre x rest b hl hb)

/-! ### Reading nodes -/

theorem nodup_toList_push {α : Type} {xs : Array α} {x : α} (h : xs.toList.Nodup) (hx : x ∉ xs) :
    (xs.push x).toList.Nodup := by
  simpa [Array.toList_push, List.nodup_append] using ⟨h, fun a ha hax => hx (hax ▸ ha)⟩

theorem getD_modify {α : Type} {xs : Array α} {i k : Nat} {f : α → α} {d : α} :
    (xs.modify i f)[k]?.getD d =
      if i = k ∧ k < xs.size then f (xs[k]?.getD d) else xs[k]?.getD d := by
  rw [Array.getElem?_modify]
  by_cases hik : i = k
  · subst hik
    by_cases hk : i < xs.size
    · simp [hk]
    · simp [hk]
  · simp [hik]

namespace Hierarchy

theorem node_push (h : Hierarchy) (x : TypeNode) (k : Nat) :
    ({ h with types := h.types.push x } : Hierarchy).node k =
      if k = h.types.size then x else h.node k := by
  unfold node
  rw [Array.getElem?_push]
  split <;> rfl

theorem node_of_size_le {h : Hierarchy} {k : Nat} (hk : h.types.size ≤ k) : h.node k = default := by
  unfold node
  rw [Array.getElem?_eq_none hk]
  rfl

/-- Parent and child edges are two views of one relation, between stored nodes, with no
repeats and no node its own parent. -/
structure Edges (h : Hierarchy) : Prop where
  parent_iff_child : ∀ a c, c ∈ (h.node a).parents ↔ a ∈ (h.node c).children
  lt_of_parent : ∀ a c, c ∈ (h.node a).parents → a < h.types.size ∧ c < h.types.size
  parents_nodup : ∀ a, (h.node a).parents.toList.Nodup
  children_nodup : ∀ a, (h.node a).children.toList.Nodup
  not_mem_parents : ∀ a, a ∉ (h.node a).parents

/-- A hierarchy without edges. -/
theorem Edges.of_isolated {h : Hierarchy}
    (hk : ∀ k, (h.node k).parents = #[] ∧ (h.node k).children = #[]) : h.Edges := by
  refine ⟨fun a c => ?_, fun a c hac => ?_, fun a => ?_, fun a => ?_, fun a => ?_⟩
  · rw [(hk a).1, (hk c).2]
    simp
  · rw [(hk a).1] at hac
    exact absurd hac (Array.not_mem_empty c)
  · simp [(hk a).1]
  · simp [(hk a).2]
  · simp [(hk a).1]

theorem Edges.lt_of_child {h : Hierarchy} (he : h.Edges) {a c : Nat}
    (hc : c ∈ (h.node a).children) : a < h.types.size ∧ c < h.types.size :=
  (he.lt_of_parent c a ((he.parent_iff_child c a).2 hc)).symm

/-- Appending a node without edges keeps the edges in order. -/
theorem Edges.push {h : Hierarchy} (he : h.Edges) {x : TypeNode} (hp : x.parents = #[])
    (hc : x.children = #[]) : ({ h with types := h.types.push x } : Hierarchy).Edges := by
  have hnode := node_push h x
  -- the new node is isolated, and no old edge reaches it
  refine ⟨fun a c => ?_, fun a c hac => ?_, fun a => ?_, fun a => ?_, fun a => ?_⟩
  · rw [hnode, hnode]
    by_cases ha : a = h.types.size
    · by_cases hc' : c = h.types.size
      · simp [ha, hc', hp, hc]
      · simp only [ha, hc', if_true, if_false, hp]
        exact ⟨fun habs => absurd habs (Array.not_mem_empty c),
          fun habs => absurd (he.lt_of_child habs).2 (lt_irrefl _)⟩
    · by_cases hc' : c = h.types.size
      · simp only [ha, hc', if_true, if_false, hc]
        exact ⟨fun habs => absurd (he.lt_of_parent a _ habs).2 (lt_irrefl _),
          fun habs => absurd habs (Array.not_mem_empty a)⟩
      · simp only [ha, hc', if_false]
        exact he.parent_iff_child a c
  · rw [hnode] at hac
    simp only [Array.size_push]
    split at hac
    · simp [hp] at hac
    · have := he.lt_of_parent a c hac
      omega
  · rw [hnode]
    split
    · simp [hp]
    · exact he.parents_nodup a
  · rw [hnode]
    split
    · simp [hc]
    · exact he.children_nodup a
  · rw [hnode]
    split
    · simp [hp]
    · exact he.not_mem_parents a

end Hierarchy

namespace HierarchyBuild

variable {tree : SymbolTree} {b : HierarchyBuild}

/-! ### The operations -/

@[simp] theorem push_snd (b : HierarchyBuild) (x : TypeNode) :
    (b.push x).2 = b.graph.types.size := rfl

@[simp] theorem size_push (b : HierarchyBuild) (x : TypeNode) :
    (b.push x).1.graph.types.size = b.graph.types.size + 1 := by
  simp [push]

@[simp] theorem push_nodeOf (b : HierarchyBuild) (x : TypeNode) :
    (b.push x).1.nodeOf = b.nodeOf := rfl

@[simp] theorem push_externals (b : HierarchyBuild) (x : TypeNode) :
    (b.push x).1.externals = b.externals := rfl

@[simp] theorem push_methods (b : HierarchyBuild) (x : TypeNode) :
    (b.push x).1.graph.methods = b.graph.methods := rfl

theorem node_push (b : HierarchyBuild) (x : TypeNode) (k : Nat) :
    (b.push x).1.graph.node k = if k = b.graph.types.size then x else b.graph.node k :=
  b.graph.node_push x k

theorem projectNode_of_some {id k : Nat} (hk : (b.nodeOf[id]?).getD none = some k) :
    b.projectNode tree id = (b, k) := by
  unfold projectNode
  rw [hk]

/-- A symbol without a node gets a new one, recording the symbol, its name and its file. -/
theorem projectNode_of_none (tree : SymbolTree) {id : Nat} (hk : (b.nodeOf[id]?).getD none = none) :
    ∃ x : TypeNode, b.projectNode tree id =
      ({ (b.push x).1 with nodeOf := b.nodeOf.setIfInBounds id (some b.graph.types.size) },
        b.graph.types.size) ∧
      x.symbol = some id ∧ x.name = (tree.get id).name ∧ x.file = (tree.get id).file ∧
      x.parents = #[] ∧ x.children = #[] ∧ x.methods = #[] := by
  unfold projectNode
  rw [hk]
  dsimp only
  split <;> exact ⟨_, rfl, rfl, rfl, rfl, rfl, rfl, rfl⟩

/-- What finding the node of a type reference can do: take the project node of the first
type it resolves to, take the external node of its written name, or make that external
node. -/
theorem typeNode_cases (tree : SymbolTree) (b : HierarchyBuild) (r : TypeRef) :
    (∃ id, (r.resolve tree).head? = some id ∧ b.typeNode tree r = b.projectNode tree id) ∨
    ((r.resolve tree).head? = none ∧ ∃ k, b.externals.lookup r.display = some k ∧
      b.typeNode tree r = (b, k)) ∨
    ((r.resolve tree).head? = none ∧ b.externals.lookup r.display = none ∧
      ∃ x : TypeNode, b.typeNode tree r =
        ({ (b.push x).1 with externals := b.externals ++ [(r.display, b.graph.types.size)] },
          b.graph.types.size) ∧
        x.symbol = none ∧ x.name = r.display ∧ x.parents = #[] ∧ x.children = #[] ∧
        x.methods = #[]) := by
  unfold typeNode
  cases hr : (r.resolve tree).head? with
  | some id => exact .inl ⟨id, rfl, rfl⟩
  | none =>
    cases hx : b.externals.lookup r.display with
    | some k => exact .inr (.inl ⟨rfl, k, rfl, rfl⟩)
    | none => exact .inr (.inr ⟨rfl, rfl, _, rfl, rfl, rfl, rfl, rfl, rfl⟩)

/-- Linking a pair that is one node, or is linked already, changes nothing. -/
theorem link_of_skip {p c : Nat} (h : p = c ∨ p ∈ (b.graph.node c).parents) : b.link p c = b := by
  unfold link
  rw [if_pos]
  rcases h with rfl | h
  · simp
  · simp [Array.contains_eq_mem, h]

/-- Otherwise the child gets the parent and the parent the child, at the end. -/
theorem node_link {p c : Nat} (hp : p < b.graph.types.size) (hc : c < b.graph.types.size)
    (hne : p ≠ c) (hnew : p ∉ (b.graph.node c).parents) (k : Nat) :
    (b.link p c).graph.node k =
      if k = c then { b.graph.node k with parents := (b.graph.node k).parents.push p }
      else if k = p then { b.graph.node k with children := (b.graph.node k).children.push c }
      else b.graph.node k := by
  unfold link
  rw [if_neg (by simp [hne, Array.contains_eq_mem, hnew])]
  dsimp only
  unfold Hierarchy.node
  rw [getD_modify, Array.size_modify, getD_modify]
  by_cases hkc : k = c
  · subst hkc
    simp [hne, hc]
  · by_cases hkp : k = p
    · subst hkp
      simp [hkc, Ne.symm hkc, hp]
    · simp [hkc, hkp, Ne.symm hkc, Ne.symm hkp]

@[simp] theorem size_link (b : HierarchyBuild) (p c : Nat) :
    (b.link p c).graph.types.size = b.graph.types.size := by
  unfold link
  split <;> simp

@[simp] theorem link_nodeOf (b : HierarchyBuild) (p c : Nat) : (b.link p c).nodeOf = b.nodeOf := by
  unfold link
  split <;> rfl

@[simp] theorem link_externals (b : HierarchyBuild) (p c : Nat) :
    (b.link p c).externals = b.externals := by
  unfold link
  split <;> rfl

@[simp] theorem link_methods (b : HierarchyBuild) (p c : Nat) :
    (b.link p c).graph.methods = b.graph.methods := by
  unfold link
  split <;> rfl

/-- Linking touches only edges: every other field of every node is kept. -/
theorem link_node_fields (b : HierarchyBuild) (p c k : Nat) :
    ((b.link p c).graph.node k).symbol = (b.graph.node k).symbol ∧
    ((b.link p c).graph.node k).name = (b.graph.node k).name ∧
    ((b.link p c).graph.node k).file = (b.graph.node k).file ∧
    ((b.link p c).graph.node k).methods = (b.graph.node k).methods := by
  by_cases hskip : p = c ∨ p ∈ (b.graph.node c).parents
  · rw [link_of_skip hskip]
    exact ⟨rfl, rfl, rfl, rfl⟩
  · -- out of bounds, `modify` leaves the array as it is
    rw [not_or] at hskip
    unfold link
    rw [if_neg (by simp [hskip.1, Array.contains_eq_mem, hskip.2])]
    dsimp only
    unfold Hierarchy.node
    rw [getD_modify, Array.size_modify, getD_modify]
    split_ifs <;> exact ⟨rfl, rfl, rfl, rfl⟩

/-- Only the child's parents change, and only by the parent. -/
theorem link_parents (b : HierarchyBuild) (p c k : Nat) :
    ((b.link p c).graph.node k).parents = (b.graph.node k).parents ∨
    (k = c ∧ ((b.link p c).graph.node k).parents = (b.graph.node k).parents.push p) := by
  by_cases hskip : p = c ∨ p ∈ (b.graph.node c).parents
  · rw [link_of_skip hskip]
    exact .inl rfl
  · rw [not_or] at hskip
    unfold link
    rw [if_neg (by simp [hskip.1, Array.contains_eq_mem, hskip.2])]
    dsimp only
    unfold Hierarchy.node
    rw [getD_modify, Array.size_modify, getD_modify]
    by_cases hkc : k = c
    · subst hkc
      split_ifs <;> simp_all
    · split_ifs <;> simp_all

end HierarchyBuild

namespace Hierarchy

open HierarchyBuild

/-- Linking a new pair of stored nodes keeps the edges in order. -/
theorem Edges.link {b : HierarchyBuild} (he : b.graph.Edges) {p c : Nat}
    (hp : p < b.graph.types.size) (hc : c < b.graph.types.size) :
    (b.link p c).graph.Edges := by
  by_cases hskip : p = c ∨ p ∈ (b.graph.node c).parents
  · rw [link_of_skip hskip]
    exact he
  rw [not_or] at hskip
  obtain ⟨hne, hnew⟩ := hskip
  have hnode := node_link hp hc hne hnew
  -- the one new edge, seen from the child and from the parent
  have hpar : ∀ a x, x ∈ ((b.link p c).graph.node a).parents ↔
      x ∈ (b.graph.node a).parents ∨ (a = c ∧ x = p) := by
    intro a x
    rw [hnode]
    by_cases hac : a = c
    · subst hac
      simp [Array.mem_push, eq_comm]
    · by_cases hap : a = p
      · subst hap
        simp [hac]
      · simp [hac, hap]
  have hchi : ∀ a x, x ∈ ((b.link p c).graph.node a).children ↔
      x ∈ (b.graph.node a).children ∨ (a = p ∧ x = c) := by
    intro a x
    rw [hnode]
    by_cases hac : a = c
    · subst hac
      simp [Ne.symm hne]
    · by_cases hap : a = p
      · subst hap
        simp [hac, Array.mem_push, eq_comm]
      · simp [hac, hap]
  have hcp : c ∉ (b.graph.node p).children := fun h => hnew ((he.parent_iff_child c p).2 h)
  refine ⟨fun a x => ?_, fun a x hx => ?_, fun a => ?_, fun a => ?_, fun a => ?_⟩
  · rw [hpar, hchi, he.parent_iff_child]
    constructor
    · rintro (h | ⟨rfl, rfl⟩)
      · exact .inl h
      · exact .inr ⟨rfl, rfl⟩
    · rintro (h | ⟨rfl, rfl⟩)
      · exact .inl h
      · exact .inr ⟨rfl, rfl⟩
  · rw [HierarchyBuild.size_link]
    rcases (hpar a x).1 hx with h | ⟨rfl, rfl⟩
    · exact he.lt_of_parent a x h
    · exact ⟨hc, hp⟩
  · rw [hnode]
    split_ifs with hac
    · subst hac
      exact nodup_toList_push (he.parents_nodup a) hnew
    · exact he.parents_nodup a
    · exact he.parents_nodup a
  · rw [hnode]
    split_ifs with hac hap
    · exact he.children_nodup a
    · subst hap
      exact nodup_toList_push (he.children_nodup a) hcp
    · exact he.children_nodup a
  · intro ha
    rcases (hpar a a).1 ha with h | ⟨rfl, h⟩
    · exact he.not_mem_parents a h
    · exact hne h.symm

/-- Two hierarchies with the same methods: on every node, and in the table of methods. -/
structure SameMethods (h h' : Hierarchy) : Prop where
  node : ∀ k, (h'.node k).methods = (h.node k).methods
  table : h'.methods = h.methods

theorem SameMethods.refl (h : Hierarchy) : h.SameMethods h := ⟨fun _ => rfl, rfl⟩

theorem SameMethods.trans {h₁ h₂ h₃ : Hierarchy} (h₁₂ : h₁.SameMethods h₂)
    (h₂₃ : h₂.SameMethods h₃) : h₁.SameMethods h₃ :=
  ⟨fun k => (h₂₃.node k).trans (h₁₂.node k), h₂₃.table.trans h₁₂.table⟩

/-- `h'` keeps the nodes of `h`, each with its symbol and name, and may have more. -/
structure Extends (h h' : Hierarchy) : Prop where
  size_le : h.types.size ≤ h'.types.size
  symbol : ∀ k < h.types.size, (h'.node k).symbol = (h.node k).symbol
  name : ∀ k < h.types.size, (h'.node k).name = (h.node k).name

theorem Extends.refl (h : Hierarchy) : h.Extends h := ⟨le_rfl, fun _ _ => rfl, fun _ _ => rfl⟩

theorem Extends.trans {h₁ h₂ h₃ : Hierarchy} (h₁₂ : h₁.Extends h₂) (h₂₃ : h₂.Extends h₃) :
    h₁.Extends h₃ :=
  ⟨h₁₂.size_le.trans h₂₃.size_le,
    fun k hk => (h₂₃.symbol k (lt_of_lt_of_le hk h₁₂.size_le)).trans (h₁₂.symbol k hk),
    fun k hk => (h₂₃.name k (lt_of_lt_of_le hk h₁₂.size_le)).trans (h₁₂.name k hk)⟩

/-- The node a type reference stands for: the node of the first type it resolves to, or
else an external node of its written name. -/
def NodeFor (tree : SymbolTree) (h : Hierarchy) (r : TypeRef) (k : Nat) : Prop :=
  k < h.types.size ∧
    match (r.resolve tree).head? with
    | some id => (h.node k).symbol = some id
    | none => (h.node k).symbol = none ∧ (h.node k).name = r.display

theorem NodeFor.extend {tree : SymbolTree} {h h' : Hierarchy} {r : TypeRef} {k : Nat}
    (hk : h.NodeFor tree r k) (hext : h.Extends h') : h'.NodeFor tree r k := by
  refine ⟨lt_of_lt_of_le hk.1 hext.size_le, ?_⟩
  obtain ⟨hlt, hk⟩ := hk
  -- a node keeps its symbol and its name
  cases hr : (r.resolve tree).head? with
  | some id =>
    simp only [hr] at hk ⊢
    rw [hext.symbol k hlt]
    exact hk
  | none =>
    simp only [hr] at hk ⊢
    rw [hext.symbol k hlt, hext.name k hlt]
    exact hk

end Hierarchy

/-- A node is the project node of a type symbol: it records the symbol, its name and its file. -/
structure TypeNode.Declares (tree : SymbolTree) (id : Nat) (x : TypeNode) : Prop where
  symbol : x.symbol = some id
  name : x.name = (tree.get id).name
  file : x.file = (tree.get id).file

/-! ### The invariant of building -/

namespace HierarchyBuild

variable {tree : SymbolTree} {b : HierarchyBuild}

theorem mem_of_lookup_eq_some {l : List (String × Nat)} {s : String} {k : Nat}
    (h : l.lookup s = some k) : (s, k) ∈ l := by
  obtain ⟨l₁, l₂, rfl, -⟩ := List.lookup_eq_some_iff.1 h
  exact List.mem_append_right _ List.mem_cons_self

theorem not_mem_keys_of_lookup_eq_none {l : List (String × Nat)} {s : String}
    (h : l.lookup s = none) : s ∉ l.map Prod.fst := by
  intro hs
  obtain ⟨e, he, rfl⟩ := List.mem_map.1 hs
  simpa using List.lookup_eq_none_iff.1 h e he

variable (tree) in
/-- What every stage of building keeps of the nodes, with `n` the number of types in the
walk: the first `n` nodes are the project nodes of the walk, the later ones are external,
each known by a name no other external has, and the edges are in order. -/
structure Grown (b : HierarchyBuild) : Prop where
  walk_le : (tree.walk .type).length ≤ b.graph.types.size
  project : ∀ k (hk : k < (tree.walk .type).length),
    (b.graph.node k).Declares tree (tree.walk .type)[k]
  nodeOf_walk : ∀ k (hk : k < (tree.walk .type).length),
    (b.nodeOf[(tree.walk .type)[k]]?).getD none = some k
  external : ∀ k, (tree.walk .type).length ≤ k → k < b.graph.types.size →
    (b.graph.node k).symbol = none ∧ (b.graph.node k).parents = #[] ∧
      ((b.graph.node k).name, k) ∈ b.externals
  externals : ∀ e ∈ b.externals,
    (tree.walk .type).length ≤ e.2 ∧ e.2 < b.graph.types.size ∧ (b.graph.node e.2).name = e.1
  externals_nodup : (b.externals.map Prod.fst).Nodup
  edges : b.graph.Edges

/-- Appending an external node, under a name no external node has yet, keeps what every
stage of building keeps, and changes no node already there. -/
theorem Grown.pushExternal (hg : b.Grown tree) {x : TypeNode} {name : String}
    (hsym : x.symbol = none) (hname : x.name = name) (hpar : x.parents = #[])
    (hchi : x.children = #[]) (hmeth : x.methods = #[]) (hlook : b.externals.lookup name = none) :
    ({ (b.push x).1 with externals := b.externals ++ [(name, b.graph.types.size)] }).Grown tree ∧
      b.graph.Extends (b.push x).1.graph ∧ b.graph.SameMethods (b.push x).1.graph := by
  have hnode := node_push b x
  have hold : ∀ k < b.graph.types.size, (b.push x).1.graph.node k = b.graph.node k :=
    fun k hk => by rw [hnode, if_neg (Nat.ne_of_lt hk)]
  have hsame : b.graph.SameMethods (b.push x).1.graph := by
    refine ⟨fun k => ?_, rfl⟩
    rw [hnode]
    split
    · rename_i hk
      rw [hmeth, Hierarchy.node_of_size_le hk.ge]
      rfl
    · rfl
  refine ⟨⟨?_, fun k hk => ?_, hg.nodeOf_walk, fun k hnk hk => ?_, fun e he => ?_, ?_,
    hg.edges.push hpar hchi⟩, ⟨by simp, fun k hk => by rw [hold k hk], fun k hk => by rw [hold k hk]⟩,
    hsame⟩
  · simp only [size_push]
    exact Nat.le_succ_of_le hg.walk_le
  · dsimp only
    rw [hold k (lt_of_lt_of_le hk hg.walk_le)]
    exact hg.project k hk
  · dsimp only at hk ⊢
    rw [size_push] at hk
    rw [hnode]
    split
    · rename_i hks
      subst hks
      exact ⟨hsym, hpar, List.mem_append_right _ (by simp [hname])⟩
    · rename_i hks
      obtain ⟨h1, h2, h3⟩ := hg.external k hnk (by omega)
      exact ⟨h1, h2, List.mem_append_left _ h3⟩
  · dsimp only
    rcases List.mem_append.1 he with he | he
    · obtain ⟨h1, h2, h3⟩ := hg.externals e he
      rw [size_push, hold e.2 h2]
      exact ⟨h1, by omega, h3⟩
    · rw [List.mem_singleton] at he
      subst he
      rw [size_push, hnode, if_pos rfl]
      exact ⟨hg.walk_le, by omega, hname⟩
  · -- the new name is none of the old ones
    dsimp only
    rw [List.map_append, List.nodup_append]
    refine ⟨hg.externals_nodup, List.nodup_singleton _, ?_⟩
    intro a ha c hc
    rw [List.map_singleton, List.mem_singleton] at hc
    subst hc
    rintro rfl
    exact not_mem_keys_of_lookup_eq_none hlook ha

/-- The node of a type reference: resolution meets only types of the walk, which have their
nodes, so nothing changes or an external node is appended. -/
theorem Grown.typeNode (hs : tree.Shaped) (hg : b.Grown tree) (r : TypeRef) :
    (b.typeNode tree r).1.Grown tree ∧
      (b.typeNode tree r).1.graph.NodeFor tree r (b.typeNode tree r).2 ∧
      b.graph.Extends (b.typeNode tree r).1.graph ∧
      b.graph.SameMethods (b.typeNode tree r).1.graph := by
  rcases typeNode_cases tree b r with ⟨id, hr, heq⟩ | ⟨hr, k, hlook, heq⟩ |
    ⟨hr, hlook, x, heq, hsym, hname, hpar, hchi, hmeth⟩
  · -- a resolved type: its project node
    obtain ⟨rest, hrest⟩ := List.head?_eq_some_iff.1 hr
    have hwalk : id ∈ tree.walk .type :=
      r.mem_walk_of_mem_resolve hs (hrest ▸ List.mem_cons_self)
    obtain ⟨k, hk, hkid⟩ := List.getElem_of_mem hwalk
    have hnode := hg.nodeOf_walk k hk
    rw [hkid] at hnode
    rw [heq, projectNode_of_some hnode]
    refine ⟨hg, ⟨lt_of_lt_of_le hk hg.walk_le, ?_⟩, .refl _, .refl _⟩
    simp only [hr]
    rw [(hg.project k hk).symbol, hkid]
  · -- an unresolved name already met: its external node
    have hmem := mem_of_lookup_eq_some hlook
    obtain ⟨hnk, hk, hkname⟩ := hg.externals _ hmem
    rw [heq]
    refine ⟨hg, ⟨hk, ?_⟩, .refl _, .refl _⟩
    simp only [hr]
    exact ⟨(hg.external k hnk hk).1, hkname⟩
  · -- an unresolved name met first: a new external node
    rw [heq]
    obtain ⟨hg', hext, hsame⟩ := hg.pushExternal hsym hname hpar hchi hmeth hlook
    refine ⟨hg', ⟨by simp, ?_⟩, hext, hsame⟩
    simp only [hr]
    rw [node_push, if_pos rfl]
    exact ⟨hsym, hname⟩

/-- Linking keeps every field of every node other than its edges. -/
theorem link_sameMethods (b : HierarchyBuild) (p c : Nat) :
    b.graph.SameMethods (b.link p c).graph :=
  ⟨fun k => (link_node_fields b p c k).2.2.2, link_methods b p c⟩

/-- Linking a project node below a stored node keeps the invariant. -/
theorem Grown.link (hg : b.Grown tree) {p c : Nat} (hp : p < b.graph.types.size)
    (hc : c < (tree.walk .type).length) : (b.link p c).Grown tree := by
  have hfields := link_node_fields b p c
  refine ⟨?_, fun k hk => ?_, ?_, fun k hnk hk => ?_, fun e he => ?_, ?_, ?_⟩
  · rw [size_link]
    exact hg.walk_le
  · obtain ⟨hsym, hname, hfile, -⟩ := hfields k
    obtain ⟨h1, h2, h3⟩ := hg.project k hk
    exact ⟨hsym.trans h1, hname.trans h2, hfile.trans h3⟩
  · rw [link_nodeOf]
    exact hg.nodeOf_walk
  · rw [size_link] at hk
    obtain ⟨h1, h2, h3⟩ := hg.external k hnk hk
    -- only the child's parents change, and the child is a project node
    have hpar : ((b.link p c).graph.node k).parents = (b.graph.node k).parents := by
      rcases link_parents b p c k with h | ⟨rfl, -⟩
      · exact h
      · omega
    rw [(hfields k).1, hpar, (hfields k).2.1, link_externals]
    exact ⟨h1, h2, h3⟩
  · rw [link_externals] at he
    obtain ⟨h1, h2, h3⟩ := hg.externals e he
    rw [size_link, (hfields e.2).2.1]
    exact ⟨h1, h2, h3⟩
  · rw [link_externals]
    exact hg.externals_nodup
  · exact hg.edges.link hp (lt_of_lt_of_le hc hg.walk_le)

/-- Linking a project node below the nodes of its super types keeps the invariant and the
methods. -/
theorem Grown.linkSupers (hs : tree.Shaped) (hg : b.Grown tree) {i : Nat}
    (hi : i < (tree.walk .type).length) :
    (b.linkSupers tree i).Grown tree ∧ b.graph.SameMethods (b.linkSupers tree i).graph := by
  unfold HierarchyBuild.linkSupers
  split
  · exact ⟨hg, .refl _⟩
  · split
    · exact ⟨hg, .refl _⟩
    · -- each super type in turn: find its node, then link it above `i`
      refine List.foldlRecOn (motive := fun (b' : HierarchyBuild) =>
        b'.Grown tree ∧ b.graph.SameMethods b'.graph)
        _ _ ⟨hg, .refl _⟩ ?_
      rintro b' ⟨hg', hsame⟩ r -
      obtain ⟨hg'', hfor, -, hsame'⟩ := hg'.typeNode hs r
      generalize b'.typeNode tree r = q at hg'' hfor hsame' ⊢
      obtain ⟨b'', parent⟩ := q
      exact ⟨hg''.link hfor.1 hi, hsame.trans (hsame'.trans (link_sameMethods b'' parent i))⟩

/-- Linking each of the first `m` nodes, all of them project nodes, below its super types
keeps the invariant and the methods. -/
theorem Grown.linkSupers_range (hs : tree.Shaped) (hg : b.Grown tree) {m : Nat}
    (hm : m ≤ (tree.walk .type).length) :
    ((List.range m).foldl (fun b i => b.linkSupers tree i) b).Grown tree ∧
      b.graph.SameMethods ((List.range m).foldl (fun b i => b.linkSupers tree i) b).graph := by
  refine List.foldlRecOn (motive := fun (b' : HierarchyBuild) =>
    b'.Grown tree ∧ b.graph.SameMethods b'.graph) _ _ ⟨hg, .refl _⟩ ?_
  rintro b' ⟨hg', hsame⟩ i hi
  obtain ⟨hg'', hsame'⟩ := hg'.linkSupers hs (lt_of_lt_of_le (List.mem_range.1 hi) hm)
  exact ⟨hg'', hsame.trans hsame'⟩

/-! ### Registering the walk -/

variable (tree) in
/-- After registering the symbols `pre`, each has its project node at its position, and
nothing else is built yet. -/
structure Registered (pre : List Nat) (b : HierarchyBuild) : Prop where
  size : b.graph.types.size = pre.length
  node : ∀ k (hk : k < pre.length), (b.graph.node k).Declares tree pre[k] ∧
    (b.graph.node k).parents = #[] ∧ (b.graph.node k).children = #[] ∧
    (b.graph.node k).methods = #[]
  nodeOf : ∀ k (hk : k < pre.length), (b.nodeOf[pre[k]]?).getD none = some k
  nodeOf_none : ∀ j, j ∉ pre → (b.nodeOf[j]?).getD none = none
  nodeOf_size : b.nodeOf.size = tree.size
  externals : b.externals = []
  methods : b.graph.methods = #[]

theorem registered_start (tree : SymbolTree) :
    ({ nodeOf := Array.replicate tree.size none } : HierarchyBuild).Registered tree [] := by
  refine ⟨rfl, fun k hk => absurd hk (Nat.not_lt_zero k), fun k hk => absurd hk (Nat.not_lt_zero k),
    fun j _ => ?_, Array.size_replicate, rfl, rfl⟩
  simp only [Array.getElem?_replicate]
  split <;> rfl

/-- Registering a symbol of the tree not registered yet appends its project node. -/
theorem Registered.projectNode {pre : List Nat} (hr : b.Registered tree pre) {x : Nat}
    (hx : x ∉ pre) (hxs : x < tree.size) :
    (b.projectNode tree x).1.Registered tree (pre ++ [x]) := by
  obtain ⟨y, heq, hsym, hname, hfile, hpar, hchi, hmeth⟩ :=
    projectNode_of_none tree (hr.nodeOf_none x hx)
  rw [heq]
  have hnode := node_push b y
  have hlen : (pre ++ [x]).length = pre.length + 1 := by simp
  refine ⟨?_, fun k hk => ?_, fun k hk => ?_, fun j hj => ?_, ?_, hr.externals, hr.methods⟩
  · simp [hr.size]
  · dsimp only
    rw [hnode]
    by_cases hks : k = pre.length
    · subst hks
      rw [if_pos hr.size.symm, List.getElem_concat_length rfl]
      exact ⟨⟨hsym, hname, hfile⟩, hpar, hchi, hmeth⟩
    · have hk' : k < pre.length := by omega
      rw [if_neg (by rw [hr.size]; exact hks), List.getElem_append_left hk']
      exact hr.node k hk'
  · dsimp only
    rw [Array.getElem?_setIfInBounds]
    by_cases hks : k = pre.length
    · subst hks
      rw [List.getElem_concat_length rfl, if_pos rfl, if_pos (by rw [hr.nodeOf_size]; exact hxs),
        hr.size]
      rfl
    · have hk' : k < pre.length := by omega
      rw [List.getElem_append_left hk']
      have hne : x ≠ pre[k] := fun h => hx (h ▸ List.getElem_mem hk')
      rw [if_neg hne]
      exact hr.nodeOf k hk'
  · dsimp only
    have hjx : x ≠ j := fun h => hj (h ▸ List.mem_append_right _ (List.mem_singleton_self x))
    rw [Array.getElem?_setIfInBounds, if_neg hjx]
    exact hr.nodeOf_none j fun h => hj (List.mem_append_left _ h)
  · simp [hr.nodeOf_size]

/-- The next symbol of the walk is stored and not met before. -/
theorem walk_next (hs : tree.Shaped) {pre rest : List Nat} {x : Nat}
    (hl : pre ++ x :: rest = tree.walk .type) : x ∉ pre ∧ x < tree.size := by
  have hnodup := hs.isTree.nodup_walk .type
  rw [← hl, List.nodup_append] at hnodup
  have hmem : x ∈ tree.walk .type := hl ▸ List.mem_append_right _ List.mem_cons_self
  exact ⟨fun h => hnodup.2.2 x h x List.mem_cons_self rfl, (hs.isTree.mem_walk.1 hmem).2.1⟩

/-- Registering the walk never meets a symbol twice: the refusing fold is the plain one. -/
theorem register_eq (hs : tree.Shaped) :
    ∀ (rest pre : List Nat) (b : HierarchyBuild), pre ++ rest = tree.walk .type →
      b.Registered tree pre →
      rest.foldlM (fun (b : HierarchyBuild) id =>
        if ((b.nodeOf[id]?).getD none).isSome then
          (.error (.duplicateType (tree.qualifiedName id)) : Except BuildError HierarchyBuild)
        else pure (b.projectNode tree id).1) b =
        .ok (rest.foldl (fun b id => (b.projectNode tree id).1) b)
  | [], _, _, _, _ => rfl
  | x :: rest, pre, b, hl, hr => by
    obtain ⟨hx, hxs⟩ := walk_next hs hl
    rw [List.foldlM_cons, hr.nodeOf_none x hx, Option.isSome_none, if_neg Bool.false_ne_true,
      List.foldl_cons]
    exact register_eq hs rest (pre ++ [x]) _ (by rw [List.append_assoc]; exact hl)
      (hr.projectNode hx hxs)

/-- Registering the walk makes its project nodes, in its order. -/
theorem registered_walk (hs : tree.Shaped) :
    ((tree.walk .type).foldl (fun (b : HierarchyBuild) id => (b.projectNode tree id).1)
      ({ nodeOf := Array.replicate tree.size none } : HierarchyBuild)).Registered tree
        (tree.walk .type) :=
  foldl_induction (P := fun pre (b : HierarchyBuild) => b.Registered tree pre) _
    (registered_start tree) fun _ _ _ _ hl hr =>
      hr.projectNode (walk_next hs hl).1 (walk_next hs hl).2

/-- Once the walk is registered, the invariant holds and no node has a method. -/
theorem Registered.grown (hr : b.Registered tree (tree.walk .type)) :
    b.Grown tree ∧ (∀ k, (b.graph.node k).methods = #[]) ∧ b.graph.methods = #[] := by
  -- past the registered nodes, a node is the default one, without edges or methods
  have hnode : ∀ k, (b.graph.node k).parents = #[] ∧ (b.graph.node k).children = #[] ∧
      (b.graph.node k).methods = #[] := by
    intro k
    by_cases hk : k < (tree.walk .type).length
    · exact (hr.node k hk).2
    · rw [Hierarchy.node_of_size_le (by rw [hr.size]; omega)]
      exact ⟨rfl, rfl, rfl⟩
  refine ⟨⟨hr.size.ge, fun k hk => (hr.node k hk).1, hr.nodeOf, fun k hnk hk => ?_, ?_, ?_,
    Hierarchy.Edges.of_isolated fun k => ⟨(hnode k).1, (hnode k).2.1⟩⟩,
    fun k => (hnode k).2.2, hr.methods⟩
  · rw [hr.size] at hk
    omega
  · rw [hr.externals]
    exact fun e he => absurd he List.not_mem_nil
  · rw [hr.externals]
    exact List.nodup_nil

end HierarchyBuild

end Lineage
