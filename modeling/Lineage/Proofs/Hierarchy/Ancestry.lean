import Mathlib.Algebra.BigOperators.Group.Finset.Basic
import Lineage.Proofs.Hierarchy.Overrides
/-!
Which types a type inherits from.

`Hierarchy.inheritsFrom a b` looks for `b` along parent edges with a stack of pending nodes,
starting from the parents of `a`, and a list of nodes already expanded. A pending node is
`b`, or was expanded before and is dropped, or is expanded: marked and replaced by its
parents. The stack may hold a node many times over, and `b` itself is never marked. The
search runs on fuel, one more than the number of edges and nodes together.

* `reaches_sound`: a node the search reports is reached from a pending node;
* `reaches_complete`: while every parent of an expanded node is expanded or pending, the
  search reports every node reached from an expanded or pending node, unless it was
  expanded, when its fuel exceeds the pending nodes and the parent edges of the nodes not
  yet expanded (`Hierarchy.unexpanded`); each round lowers that count by one;
* `hierarchy_inheritsFrom_iff`: in the hierarchy built from any tree, a type inherits from
  another exactly when a path of one or more parent edges leads from it to the other, so a
  type inherits from itself exactly when it lies on a cycle, and its ancestors are those
  types, ascending.
-/
namespace Lineage

/-- A list of distinct numbers below `n` has at most `n` elements. -/
theorem length_le_of_nodup_of_lt {l : List Nat} {n : Nat} (hl : l.Nodup) (hlt : ∀ x ∈ l, x < n) :
    l.length ≤ n := by
  have hsub := List.subperm_of_subset hl fun x hx => List.mem_range.2 (hlt x hx)
  simpa using hsub.length_le

namespace Hierarchy

variable (h : Hierarchy)

/-- The parent edges of the stored nodes not yet expanded. -/
def unexpanded (seen : List Nat) : Nat :=
  ∑ x ∈ Finset.range h.types.size, if x ∈ seen then 0 else (h.node x).parents.size

/-- Expanding a node takes its parent edges off the count; a node past the table has none. -/
theorem unexpanded_cons {next : Nat} {seen : List Nat} (hn : next ∉ seen) :
    h.unexpanded (next :: seen) + (h.node next).parents.size = h.unexpanded seen := by
  unfold unexpanded
  -- away from `next` the two sums agree term by term
  have hsame : ∀ x, x ≠ next →
      (if x ∈ next :: seen then 0 else (h.node x).parents.size) =
        if x ∈ seen then 0 else (h.node x).parents.size := fun x hx => by
    simp [List.mem_cons, hx]
  by_cases hlt : next < h.types.size
  · have hmem := Finset.mem_range.2 hlt
    rw [← Finset.add_sum_erase _ _ hmem, ← Finset.add_sum_erase _ _ hmem,
      Finset.sum_congr rfl fun x hx => hsame x (Finset.ne_of_mem_erase hx),
      if_pos List.mem_cons_self, if_neg hn]
    omega
  · rw [node_of_size_le (Nat.le_of_not_lt hlt),
      Finset.sum_congr rfl fun x hx => hsame x (by have := Finset.mem_range.1 hx; omega)]
    rfl

theorem foldl_parents_size (l : List TypeNode) (n : Nat) :
    l.foldl (fun n t => n + t.parents.size) n =
      n + ∑ x ∈ Finset.range l.length, (l[x]?.getD default).parents.size := by
  induction l generalizing n with
  | nil => simp
  | cons t l ih =>
    rw [List.foldl_cons, ih, List.length_cons, Finset.sum_range_succ']
    simp only [List.getElem?_cons_succ, List.getElem?_cons_zero, Option.getD_some]
    omega

/-- The edge count the search is given is the count of every parent edge, none expanded. -/
theorem edgeCount_eq : h.types.foldl (fun n t => n + t.parents.size) 0 = h.unexpanded [] := by
  rw [← Array.foldl_toList, foldl_parents_size, Nat.zero_add, Array.length_toList]
  unfold unexpanded node
  simp

variable {h}

/-- Whatever the fuel, a node the search reports is reached, along zero or more parent edges,
from a pending node. -/
theorem reaches_sound {b : Nat} : ∀ {fuel : Nat} {pending seen : List Nat},
    h.reaches b fuel pending seen = true →
      ∃ x ∈ pending, Relation.ReflTransGen (fun a b => b ∈ (h.node a).parents) x b
  | 0, _, _, hr => by simp [reaches] at hr
  | _ + 1, [], _, hr => by simp [reaches] at hr
  | fuel + 1, next :: pending, seen, hr => by
    rw [reaches] at hr
    by_cases hb : next = b
    · exact ⟨next, List.mem_cons_self, hb ▸ .refl⟩
    rw [if_neg (by simpa using hb)] at hr
    split at hr
    · -- `next` was expanded before and is dropped
      obtain ⟨x, hx, hxb⟩ := reaches_sound hr
      exact ⟨x, List.mem_cons_of_mem next hx, hxb⟩
    · -- `next` is replaced by its parents
      obtain ⟨x, hx, hxb⟩ := reaches_sound hr
      rcases List.mem_append.1 hx with hx | hx
      · exact ⟨next, List.mem_cons_self,
          .head (Array.mem_toList_iff.1 (List.mem_reverse.1 hx)) hxb⟩
      · exact ⟨x, List.mem_cons_of_mem next hx, hxb⟩

/-- A list closed under parents holds everything reached from its members. -/
theorem mem_of_closed {seen : List Nat} (hc : ∀ x ∈ seen, ∀ p ∈ (h.node x).parents, p ∈ seen)
    {x y : Nat} (hx : x ∈ seen)
    (hxy : Relation.ReflTransGen (fun a b => b ∈ (h.node a).parents) x y) : y ∈ seen := by
  induction hxy with
  | refl => exact hx
  | tail _ hyz ih => exact hc _ ih _ hyz

/-- With fuel beyond the pending nodes and the unexpanded edges, and every parent of an
expanded node expanded or pending, the search reports every node that is not expanded and is
reached from an expanded or a pending node. -/
theorem reaches_complete {b : Nat} : ∀ {fuel : Nat} {pending seen : List Nat},
    pending.length + h.unexpanded seen < fuel → b ∉ seen →
    (∀ x ∈ seen, ∀ p ∈ (h.node x).parents, p ∈ seen ∨ p ∈ pending) →
    ∀ x, x ∈ seen ∨ x ∈ pending →
      Relation.ReflTransGen (fun a b => b ∈ (h.node a).parents) x b →
      h.reaches b fuel pending seen = true
  | 0, _, _, hf, _, _, _, _, _ => absurd hf (Nat.not_lt_zero _)
  | fuel + 1, [], seen, _, hb, hc, x, hx, hxb => by
    -- nothing is pending: the expanded nodes are closed under parents, and `b` is not one
    simp only [List.not_mem_nil, or_false] at hc hx
    exact absurd (mem_of_closed hc hx hxb) hb
  | fuel + 1, next :: pending, seen, hf, hb, hc, x, hx, hxb => by
    rw [reaches]
    by_cases hnb : next = b
    · simp [hnb]
    rw [if_neg (by simpa using hnb)]
    rw [List.length_cons] at hf
    split
    · -- `next` was expanded before: dropping it loses nothing
      rename_i hseen
      have hseen : next ∈ seen := by simpa using hseen
      have drop : ∀ y, y ∈ seen ∨ y ∈ next :: pending → y ∈ seen ∨ y ∈ pending := by
        intro y hy
        rcases hy with hy | hy
        · exact .inl hy
        · rcases List.mem_cons.1 hy with rfl | hy
          · exact .inl hseen
          · exact .inr hy
      exact reaches_complete (by omega) hb (fun y hy p hp => drop p (hc y hy p hp)) x
        (drop x hx) hxb
    · -- `next` is expanded: its parents become pending
      rename_i hseen
      have hns : next ∉ seen := by simpa using hseen
      have hu := h.unexpanded_cons hns
      have grow : ∀ y, y ∈ seen ∨ y ∈ next :: pending →
          y ∈ next :: seen ∨ y ∈ (h.node next).parents.toList.reverse ++ pending := by
        intro y hy
        rcases hy with hy | hy
        · exact .inl (List.mem_cons_of_mem next hy)
        · rcases List.mem_cons.1 hy with rfl | hy
          · exact .inl List.mem_cons_self
          · exact .inr (List.mem_append_right _ hy)
      refine reaches_complete ?_ ?_ (fun y hy p hp => ?_) x (grow x hx) hxb
      · rw [List.length_append, List.length_reverse, Array.length_toList]
        omega
      · simp [hb, Ne.symm hnb]
      · rcases List.mem_cons.1 hy with rfl | hy
        · exact .inr (List.mem_append_left _ (List.mem_reverse.2 (Array.mem_toList_iff.2 hp)))
        · exact grow p (hc y hy p hp)

variable (h)

/-- In a hierarchy whose parents are stored and listed once each, a type inherits from another
exactly when a path of one or more parent edges leads from it to the other. -/
theorem inheritsFrom_iff (he : h.Edges) (a b : Nat) :
    h.inheritsFrom a b = true ↔ Relation.TransGen (fun a b => b ∈ (h.node a).parents) a b := by
  unfold inheritsFrom
  constructor
  · intro hr
    obtain ⟨x, hx, hxb⟩ := reaches_sound hr
    exact .head' (Array.mem_toList_iff.1 (List.mem_reverse.1 hx)) hxb
  · intro hab
    obtain ⟨x, hx, hxb⟩ := Relation.TransGen.head'_iff.1 hab
    -- the parents of `a` are distinct stored nodes, so there are no more of them than nodes
    have hpar : (h.node a).parents.size ≤ h.types.size := by
      rw [← Array.length_toList]
      exact length_le_of_nodup_of_lt (he.parents_nodup a) fun p hp =>
        (he.lt_of_parent a p (Array.mem_toList_iff.1 hp)).2
    refine reaches_complete ?_ List.not_mem_nil (fun y hy => absurd hy List.not_mem_nil) x
      (.inr (List.mem_reverse.2 (Array.mem_toList_iff.2 hx))) hxb
    rw [List.length_reverse, Array.length_toList, edgeCount_eq]
    omega

/-- Every node that `i` inherits from, ascending. -/
def ancestors (i : Nat) : List Nat :=
  (List.range h.types.size).filter (h.inheritsFrom i)

/-- The ancestors of a type are the types it reaches along one or more parent edges. -/
theorem mem_ancestors_iff (he : h.Edges) (a b : Nat) :
    b ∈ h.ancestors a ↔ Relation.TransGen (fun a b => b ∈ (h.node a).parents) a b := by
  unfold ancestors
  rw [List.mem_filter, List.mem_range, inheritsFrom_iff h he]
  refine ⟨fun hb => hb.2, fun hab => ⟨?_, hab⟩⟩
  -- the last edge of the path ends at a stored node
  obtain ⟨c, -, hcb⟩ := Relation.TransGen.tail'_iff.1 hab
  exact (he.lt_of_parent c b hcb).2

theorem ancestors_sorted (a : Nat) : (h.ancestors a).Pairwise (· < ·) :=
  (List.pairwise_lt_range).filter _

end Hierarchy

/-- The hierarchy built from any tree has its edges in order. -/
theorem hierarchy_edges {tree : SymbolTree} {T : Hierarchy} (hT : tree.hierarchy = .ok T) :
    T.Edges := by
  obtain ⟨h, hr, rfl⟩ := hierarchy_eq_ok hT
  have hc := Hierarchy.sameCore_roots tree h
  exact hr.edges.congr (by rw [hc.types]) fun k => by rw [hc.node]; exact ⟨rfl, rfl⟩

/-- In the hierarchy built from any tree, whatever the shape of its inheritance, a type inherits
from another exactly when a path of one or more parent edges leads from it to the other, so a
type inherits from itself exactly when it lies on a cycle; and the ancestors of a type are
those types, in ascending order. -/
theorem hierarchy_inheritsFrom_iff {tree : SymbolTree} {T : Hierarchy}
    (hT : tree.hierarchy = .ok T) :
    (∀ a b, T.inheritsFrom a b = true ↔
      Relation.TransGen (fun a b => b ∈ (T.node a).parents) a b) ∧
    ∀ a, (∀ b, b ∈ T.ancestors a ↔ Relation.TransGen (fun a b => b ∈ (T.node a).parents) a b) ∧
      (T.ancestors a).Pairwise (· < ·) := by
  have he := hierarchy_edges hT
  exact ⟨T.inheritsFrom_iff he, fun a => ⟨T.mem_ancestors_iff he a, T.ancestors_sorted a⟩⟩

/-- The Java codebase of an interface, a class implementing it and a subclass of that class
has a hierarchy, and inheritance there is reachability along parent edges. -/
theorem shapes_inheritsFrom_iff :
    ∃ T, ((Corpus.addFile { name := "shapes", languages := ["java"] } "Shapes.java"
        "interface Shape {}\nclass Square implements Shape {}\nclass Tile extends Square {}").1.codebases[0]?.getD
          (⟨.java, SymbolTree.new "shapes" "java", 0⟩ : Codebase)).tree.hierarchy = .ok T ∧
      (∀ a b, T.inheritsFrom a b = true ↔
        Relation.TransGen (fun a b => b ∈ (T.node a).parents) a b) ∧
      ∀ a, (∀ b, b ∈ T.ancestors a ↔ Relation.TransGen (fun a b => b ∈ (T.node a).parents) a b) ∧
        (T.ancestors a).Pairwise (· < ·) := by
  obtain ⟨T, hT, -⟩ := hierarchy_wellFormed (Corpus.getD_shaped
    (Corpus.Reachable.addFile _ _ (.new "shapes" ["java"])).shaped 0
    ⟨.java, SymbolTree.new "shapes" "java", 0⟩ (SymbolTree.shaped_new "shapes" "java"))
  exact ⟨T, hT, hierarchy_inheritsFrom_iff hT⟩

end Lineage
