import Lineage.Proofs.Tree.Shape
import Mathlib.Data.Finset.Card
/-!
Walking a tree.

A tree (`IsTree`) is what the containment of a shaped tree is, and nothing more: the root is
the project, has no parent and lies within nothing else, parents and children agree without
repeats, and every stored symbol lies within the root. In a tree every symbol has a depth,
the number of parent links from it to the root, and that depth is unique because the root
has no parent. From this:

* `IsTree.within_antisymm`, `IsTree.siblings_eq`: no symbol lies within its own child,
  and two children of one symbol hold no symbol in common;
* `IsTree.depth_lt_size`: a chain to the root visits distinct stored symbols, so depths
  stay below the size, which is the fuel `walkFrom` is given;
* `IsTree.walkFrom_succ_of_depth`: below a symbol at depth `d`, fuel past `size - d` changes
  nothing, so with the size as fuel the walk from a stored symbol unfolds one level at a time
  (`IsTree.walkFrom_size_of_lt`);
* `IsTree.walkLoop_eq`: the loop of `walk` keeps on its stack, read from the top, the
  subtrees still to be listed, so the walk of the tree is the pre-order from the root less
  the root (`IsTree.walk_eq_filter`);
* `IsTree.nodup_descendants`, `IsTree.mem_descendants`: the walk below a symbol lists each
  symbol strictly within it that the class accepts, and each exactly once; the walk of the
  whole tree is the walk below the root (`IsTree.nodup_walk`, `IsTree.mem_walk`).
-/
namespace Lineage

/-- A request for any class accepts every kind of symbol. -/
@[simp] theorem SymbolClass.accepts_any (k : SymbolKind) : SymbolClass.any.accepts k = true := rfl

namespace SymbolTree

variable {t : SymbolTree}

/-- The containment of the tree is a finite tree whose root is the project at index 0: the
root is stored and has no parent, `c` is among the children of `p` exactly when `p` is the
parent of `c`, each child is listed once, and every stored symbol lies within the root. -/
structure IsTree (t : SymbolTree) : Prop where
  nonempty : 0 < t.size
  root_project : ∃ l, (t.get 0).kind = .project l
  root_parent : (t.get 0).parent = none
  mem_children : ∀ p c, c ∈ (t.get p).children ↔ (t.get c).parent = some p
  children_nodup : ∀ p, (t.get p).children.toList.Nodup
  rooted : ∀ i < t.size, t.Within i 0

theorem Shaped.isTree (h : t.Shaped) : t.IsTree :=
  ⟨h.nonempty, h.root_project, h.root_parent, h.mem_children, h.children_nodup, h.rooted⟩

theorem IsTree.parent_lt (h : t.IsTree) {c p : Nat} (hc : (t.get c).parent = some p) :
    p < t.size := by
  have hmem : c ∈ (t.get p).children := (h.mem_children p c).2 hc
  by_contra hlt
  rw [get_of_size_le (by omega)] at hmem
  simp at hmem

/-- A symbol within a stored one is stored: past the end there are no parents. -/
theorem lt_size_of_within {x c : Nat} (hw : t.Within x c) (hc : c < t.size) : x < t.size := by
  obtain ⟨n, hn⟩ := hw
  by_contra hlt
  rcases n with _ | n
  · obtain rfl := Option.some.inj hn
    exact hlt hc
  · rw [climb_succ, get_of_size_le (Nat.le_of_not_lt hlt)] at hn
    cases hn

/-! ### Depth -/

/-- The root ends every chain it lies on: a chain reaches it after one number of links
only. -/
theorem climb_root_unique (h : (t.get 0).parent = none) {n m i : Nat}
    (hn : t.climb n i = some 0) (hm : t.climb m i = some 0) : n = m := by
  have key : ∀ a b, a < b → t.climb a i = some 0 → t.climb b i ≠ some 0 := by
    intro a b hab ha hb
    obtain ⟨k, rfl⟩ : ∃ k, b = a + (k + 1) := ⟨b - a - 1, by omega⟩
    rw [climb_add, ha, Option.bind_some, climb_succ, h] at hb
    cases hb
  rcases Nat.lt_trichotomy n m with hlt | heq | hgt
  · exact absurd hm (key n m hlt hn)
  · exact heq
  · exact absurd hn (key m n hgt hm)

theorem IsTree.within_antisymm (h : t.IsTree) {a b : Nat} (ha : a < t.size)
    (hab : t.Within a b) (hba : t.Within b a) : a = b := by
  obtain ⟨n, hn⟩ := hab
  obtain ⟨m, hm⟩ := hba
  obtain ⟨d, hd⟩ := h.rooted a ha
  have hloop : t.climb (n + m + d) a = some 0 := by
    rw [climb_add, climb_add, hn, Option.bind_some, hm, Option.bind_some, hd]
  have hzero : n + m + d = d := climb_root_unique h.root_parent hloop hd
  obtain rfl : n = 0 := by omega
  simpa using hn

/-- A symbol does not lie within any of its children. -/
theorem IsTree.not_within_child (h : t.IsTree) {p c : Nat} (hc : (t.get c).parent = some p)
    (hw : t.Within p c) : False := by
  have hcp : t.Within c p := Within.of_parent hc
  have heq := h.within_antisymm (Linked.lt_of_parent hc) hcp hw
  subst heq
  obtain ⟨n, hn⟩ := h.rooted c (Linked.lt_of_parent hc)
  have hself : t.climb (1 + n) c = some 0 := by
    rw [climb_add, show t.climb 1 c = some c by simp [climb_succ, hc], Option.bind_some, hn]
  have := climb_root_unique h.root_parent hself hn
  omega

/-- Two children of one symbol hold no symbol in common unless they are one. -/
theorem IsTree.siblings_eq (h : t.IsTree) {p c₁ c₂ x : Nat}
    (h₁ : (t.get c₁).parent = some p) (h₂ : (t.get c₂).parent = some p)
    (hx₁ : t.Within x c₁) (hx₂ : t.Within x c₂) : c₁ = c₂ := by
  obtain ⟨n₁, hn₁⟩ := hx₁
  obtain ⟨n₂, hn₂⟩ := hx₂
  obtain ⟨d, hd⟩ := h.rooted p (h.parent_lt h₁)
  have hup : ∀ c, (t.get c).parent = some p → t.climb (1 + d) c = some 0 := by
    intro c hc
    rw [climb_add, show t.climb 1 c = some p by simp [climb_succ, hc], Option.bind_some, hd]
  have e₁ : t.climb (n₁ + (1 + d)) x = some 0 := by rw [climb_add, hn₁, Option.bind_some, hup c₁ h₁]
  have e₂ : t.climb (n₂ + (1 + d)) x = some 0 := by rw [climb_add, hn₂, Option.bind_some, hup c₂ h₂]
  have hlen : n₁ = n₂ := by
    have := climb_root_unique h.root_parent e₁ e₂
    omega
  subst hlen
  rw [hn₁] at hn₂
  exact Option.some.inj hn₂

/-- The symbols on a chain to the root are stored. -/
theorem IsTree.lt_of_climb (h : t.IsTree) {n i y : Nat} (hi : i < t.size)
    (hy : t.climb n i = some y) : y < t.size := by
  obtain ⟨d, hd⟩ := h.rooted i hi
  by_contra hlt
  have hdef : t.get y = default := get_of_size_le (Nat.le_of_not_lt hlt)
  rcases Nat.lt_or_ge n d with hnd | hnd
  · obtain ⟨k, rfl⟩ : ∃ k, d = n + (k + 1) := ⟨d - n - 1, by omega⟩
    rw [climb_add, hy, Option.bind_some, climb_succ, hdef] at hd
    cases hd
  · obtain ⟨k, rfl⟩ : ∃ k, n = d + k := ⟨n - d, by omega⟩
    rw [climb_add, hd, Option.bind_some] at hy
    rcases k with _ | k
    · obtain rfl := Option.some.inj hy
      exact hlt h.nonempty
    · rw [climb_succ, h.root_parent] at hy
      cases hy

/-- A chain to the root passes distinct stored symbols, so it is shorter than the tree. -/
theorem IsTree.depth_lt_size (h : t.IsTree) {d i : Nat} (hi : i < t.size)
    (hd : t.climb d i = some 0) : d < t.size := by
  have hsome : ∀ k ≤ d, ∃ y, t.climb k i = some y := by
    intro k hk
    obtain ⟨j, rfl⟩ : ∃ j, d = k + j := ⟨d - k, by omega⟩
    rw [climb_add] at hd
    cases hk' : t.climb k i with
    | none => rw [hk'] at hd; cases hd
    | some y => exact ⟨y, rfl⟩
  have hmaps : Set.MapsTo (fun k => (t.climb k i).getD 0) (Finset.range (d + 1) : Set Nat)
      (Finset.range t.size : Set Nat) := by
    intro k hk
    simp only [Finset.coe_range, Set.mem_Iio] at hk ⊢
    obtain ⟨y, hy⟩ := hsome k (by omega)
    rw [hy, Option.getD_some]
    exact h.lt_of_climb hi hy
  have hinj : Set.InjOn (fun k => (t.climb k i).getD 0) (Finset.range (d + 1) : Set Nat) := by
    intro a ha b hb hab
    simp only [Finset.coe_range, Set.mem_Iio] at ha hb
    obtain ⟨ya, hya⟩ := hsome a (by omega)
    obtain ⟨yb, hyb⟩ := hsome b (by omega)
    simp only [hya, hyb, Option.getD_some] at hab
    subst hab
    -- from the common symbol both chains reach the root, after `d - a` and `d - b` links
    have hra : t.climb (d - a) ya = some 0 := by
      rw [← hd, show d = a + (d - a) by omega, climb_add, hya, Option.bind_some]
      congr 1
      omega
    have hrb : t.climb (d - b) ya = some 0 := by
      rw [← hd, show d = b + (d - b) by omega, climb_add, hyb, Option.bind_some]
      congr 1
      omega
    have := climb_root_unique h.root_parent hra hrb
    omega
  have hcard := Finset.card_le_card_of_injOn _ hmaps hinj
  simp only [Finset.card_range] at hcard
  omega

/-! ### The walk -/

theorem walkFrom_succ (cls : SymbolClass) (fuel id : Nat) :
    t.walkFrom cls (fuel + 1) id =
      (if cls.accepts (t.get id).kind then [id] else []) ++
        (t.get id).children.toList.flatMap (t.walkFrom cls fuel) := rfl

/-- What the walk from a symbol lists lies within that symbol and is accepted. -/
theorem IsTree.within_of_mem_walkFrom (h : t.IsTree) {cls : SymbolClass} :
    ∀ {fuel id x : Nat}, x ∈ t.walkFrom cls fuel id →
      t.Within x id ∧ cls.accepts (t.get x).kind
  | 0, _, _, hx => by simp [walkFrom] at hx
  | fuel + 1, id, x, hx => by
    rw [walkFrom_succ, List.mem_append, List.mem_flatMap] at hx
    rcases hx with hx | ⟨c, hc, hx⟩
    · split at hx
      · rename_i hacc
        obtain rfl := List.mem_singleton.1 hx
        exact ⟨Within.refl _ _, hacc⟩
      · simp at hx
    · obtain ⟨hxc, hacc⟩ := h.within_of_mem_walkFrom hx
      have hparent : (t.get c).parent = some id :=
        (h.mem_children id c).1 (Array.mem_toList_iff.1 hc)
      exact ⟨hxc.trans (Within.of_parent hparent), hacc⟩

/-- The walk from a symbol lists every accepted symbol that reaches it in fewer links than
its fuel. -/
theorem IsTree.mem_walkFrom (h : t.IsTree) {cls : SymbolClass} :
    ∀ {fuel n id x : Nat}, t.climb n x = some id → n < fuel →
      cls.accepts (t.get x).kind → x ∈ t.walkFrom cls fuel id
  | 0, _, _, _, _, hn, _ => absurd hn (Nat.not_lt_zero _)
  | fuel + 1, 0, id, x, hx, _, hacc => by
    obtain rfl : x = id := by simpa using hx
    rw [walkFrom_succ, if_pos hacc]
    exact List.mem_append_left _ (List.mem_singleton_self _)
  | fuel + 1, n + 1, id, x, hx, hn, hacc => by
    -- the last link of the chain goes from a child `c` of `id` to `id`
    rw [climb_add] at hx
    obtain ⟨c, hc, hcid⟩ := Option.bind_eq_some_iff.1 hx
    have hparent : (t.get c).parent = some id := by rwa [climb_one] at hcid
    have hmem : c ∈ (t.get id).children.toList :=
      Array.mem_toList_iff.2 ((h.mem_children id c).2 hparent)
    rw [walkFrom_succ]
    exact List.mem_append_right _
      (List.mem_flatMap.2 ⟨c, hmem, h.mem_walkFrom hc (by omega) hacc⟩)

/-- The walk from a symbol lists nothing twice. -/
theorem IsTree.nodup_walkFrom (h : t.IsTree) (cls : SymbolClass) :
    ∀ (fuel id : Nat), (t.walkFrom cls fuel id).Nodup
  | 0, _ => by simp [walkFrom]
  | fuel + 1, id => by
    rw [walkFrom_succ, List.nodup_append]
    refine ⟨?_, ?_, ?_⟩
    · split <;> simp
    · rw [List.nodup_flatMap]
      refine ⟨fun c _ => h.nodup_walkFrom cls fuel c, ?_⟩
      refine (h.children_nodup id).pairwise_of_forall_ne fun a ha b hb hne x hxa hxb => ?_
      have hpa := (h.mem_children id a).1 (Array.mem_toList_iff.1 ha)
      have hpb := (h.mem_children id b).1 (Array.mem_toList_iff.1 hb)
      exact hne (h.siblings_eq hpa hpb (h.within_of_mem_walkFrom hxa).1
        (h.within_of_mem_walkFrom hxb).1)
    · -- the symbol itself lies within none of its children
      intro a ha b hb hab
      subst hab
      split at ha
      · obtain rfl := List.mem_singleton.1 ha
        obtain ⟨c, hc, hxc⟩ := List.mem_flatMap.1 hb
        have hparent := (h.mem_children a c).1 (Array.mem_toList_iff.1 hc)
        exact h.not_within_child hparent (h.within_of_mem_walkFrom hxc).1
      · simp at ha

/-- A symbol at depth `d` has the walk below it complete once `d` and the fuel reach the
size: one more unit of fuel changes nothing. -/
theorem IsTree.walkFrom_succ_of_depth (h : t.IsTree) (cls : SymbolClass) :
    ∀ (fuel i d : Nat), t.climb d i = some 0 → t.size ≤ d + fuel →
      t.walkFrom cls (fuel + 1) i = t.walkFrom cls fuel i
  | 0, i, d, hd, hle => by
    have hi : i < t.size := lt_size_of_within ⟨d, hd⟩ h.nonempty
    have := h.depth_lt_size hi hd
    omega
  | fuel + 1, i, d, hd, hle => by
    rw [walkFrom_succ, walkFrom_succ]
    congr 1
    refine List.flatMap_congr fun c hc => ?_
    -- a child lies one link deeper
    have hp : (t.get c).parent = some i := (h.mem_children i c).1 (Array.mem_toList_iff.1 hc)
    exact h.walkFrom_succ_of_depth cls fuel c (d + 1)
      (by rw [Nat.add_comm, climb_add, climb_one, hp, Option.bind_some, hd]) (by omega)

/-- A child of a stored symbol lies at some depth of at least one. -/
theorem IsTree.depth_of_mem_children (h : t.IsTree) {s c : Nat}
    (hc : c ∈ (t.get s).children.toList) : ∃ d, t.climb (d + 1) c = some 0 := by
  have hp : (t.get c).parent = some s := (h.mem_children s c).1 (Array.mem_toList_iff.1 hc)
  obtain ⟨d, hd⟩ := h.rooted s (h.parent_lt hp)
  exact ⟨d, by rw [Nat.add_comm, climb_add, climb_one, hp, Option.bind_some, hd]⟩

/-- With the size as fuel, the walk from a stored symbol is the symbol, when accepted, and
then the walks from its children with the same fuel. -/
theorem IsTree.walkFrom_size_of_lt (h : t.IsTree) (cls : SymbolClass) {x : Nat}
    (hx : x < t.size) :
    t.walkFrom cls t.size x = (if cls.accepts (t.get x).kind then [x] else []) ++
      (t.get x).children.toList.flatMap (t.walkFrom cls t.size) := by
  obtain ⟨k, hk⟩ : ∃ k, t.size = k + 1 := ⟨t.size - 1, by omega⟩
  rw [hk, walkFrom_succ]
  congr 1
  refine List.flatMap_congr fun c hc => ?_
  -- a child lies at depth one at least, so the fuel left after one link is enough
  obtain ⟨d, hd⟩ := h.depth_of_mem_children hc
  exact (h.walkFrom_succ_of_depth cls k c (d + 1) hd (by omega)).symm

/-- The walk for a class is the walk for any class, less what the class refuses. -/
theorem filter_walkFrom_any (cls : SymbolClass) :
    ∀ (fuel x : Nat), (t.walkFrom .any fuel x).filter (fun y => cls.accepts (t.get y).kind) =
      t.walkFrom cls fuel x
  | 0, _ => rfl
  | fuel + 1, x => by
    rw [walkFrom_succ, walkFrom_succ, List.filter_append, List.filter_flatMap,
      SymbolClass.accepts_any, if_pos rfl, List.filter_singleton]
    congr 1
    · cases cls.accepts (t.get x).kind <;> rfl
    · exact List.flatMap_congr fun c _ => filter_walkFrom_any cls fuel c

/-- The walk from a stored symbol lists no more symbols than the tree holds. -/
theorem IsTree.length_walkFrom_le (h : t.IsTree) (cls : SymbolClass) (fuel : Nat) {x : Nat}
    (hx : x < t.size) : (t.walkFrom cls fuel x).length ≤ t.size := by
  have hsub : t.walkFrom cls fuel x ⊆ List.range t.size := fun y hy =>
    List.mem_range.2 (lt_size_of_within (h.within_of_mem_walkFrom hy).1 hx)
  simpa using (List.subperm_of_subset (h.nodup_walkFrom cls fuel x) hsub).length_le

/-! ### The stack loop -/

/-- One pop of the loop: the top symbol is listed when it is not the root and the class
accepts it, and its children go on the stack in reverse. -/
theorem walkLoop_of_back? (cls : SymbolClass) (fuel : Nat) {stack : Array Nat} {x : Nat}
    (found : Array Nat) (hb : stack.back? = some x) :
    t.walkLoop cls (fuel + 1) stack found =
      t.walkLoop cls fuel (stack.pop ++ (t.get x).children.reverse)
        (if x != 0 && cls.accepts (t.get x).kind then found.push x else found) := by
  rw [walkLoop, hb]

/-- The stack read from the top, once its top is known. -/
theorem toList_reverse_of_back? {stack : Array Nat} {x : Nat} (hb : stack.back? = some x) :
    stack.toList.reverse = x :: stack.pop.toList.reverse := by
  obtain ⟨ys, rfl⟩ := Array.back?_eq_some_iff.1 hb
  simp

/-- Children pushed in reverse are read from the top in their own order. -/
theorem toList_reverse_push_children (stack cs : Array Nat) :
    (stack ++ cs.reverse).toList.reverse = cs.toList ++ stack.toList.reverse := by
  simp

/-- The loop lists, after what it has found, the symbols of the pending subtrees in
pre-order, less the root and what the class refuses, as long as its fuel covers them. The
stack read from the top is the list of pending subtrees; one pop replaces the first of them
by the subtrees of its children, which is one symbol fewer. -/
theorem IsTree.walkLoop_eq (h : t.IsTree) (cls : SymbolClass) :
    ∀ (fuel : Nat) (stack found : Array Nat), (∀ x ∈ stack, x < t.size) →
      (stack.toList.reverse.flatMap (t.walkFrom .any t.size)).length ≤ fuel →
      (t.walkLoop cls fuel stack found).toList = found.toList ++
        (stack.toList.reverse.flatMap (t.walkFrom .any t.size)).filter
          fun x => x != 0 && cls.accepts (t.get x).kind
  | 0, stack, found, _, hlen => by
    rw [List.eq_nil_of_length_eq_zero (Nat.le_zero.1 hlen)]
    simp [walkLoop]
  | fuel + 1, stack, found, hlt, hlen => by
    cases hb : stack.back? with
    | none =>
      obtain rfl := Array.back?_eq_none_iff.1 hb
      simp [walkLoop]
    | some x =>
      have hx : x < t.size := hlt x (Array.mem_of_back? hb)
      -- the top's subtree is the top itself, then the subtrees of its children
      have hsplit : stack.toList.reverse.flatMap (t.walkFrom .any t.size) =
          x :: (stack.pop ++ (t.get x).children.reverse).toList.reverse.flatMap
            (t.walkFrom .any t.size) := by
        rw [toList_reverse_of_back? hb, toList_reverse_push_children, List.flatMap_cons,
          h.walkFrom_size_of_lt .any hx, List.flatMap_append]
        rfl
      have hlt' : ∀ y ∈ stack.pop ++ (t.get x).children.reverse, y < t.size := by
        intro y hy
        rcases Array.mem_append.1 hy with hy | hy
        · rw [← Array.mem_toList_iff, Array.toList_pop] at hy
          exact hlt y (Array.mem_toList_iff.1 (List.dropLast_subset _ hy))
        · exact Linked.lt_of_parent ((h.mem_children x y).1 (Array.mem_reverse.1 hy))
      rw [hsplit, List.length_cons] at hlen
      rw [walkLoop_of_back? cls fuel found hb, h.walkLoop_eq cls fuel _ _ hlt' (by omega), hsplit,
        List.filter_cons]
      split <;> simp_all

/-- In a tree, the loop started on the root lists the recursive pre-order from the root, less
the root and what the class refuses. -/
theorem IsTree.walk_eq_filter (h : t.IsTree) (cls : SymbolClass) :
    t.walk cls = (t.walkFrom .any t.size 0).filter
      fun x => x != 0 && cls.accepts (t.get x).kind := by
  have hroot : ∀ x ∈ (#[0] : Array Nat), x < t.size := by
    simpa using h.nonempty
  have hrun := h.walkLoop_eq cls t.size #[0] #[] hroot
    (by simpa using h.length_walkFrom_le .any t.size h.nonempty)
  simpa [walk] using hrun

/-! ### Below a symbol -/

/-- The symbols strictly within `s` that the class accepts, in depth-first pre-order over
the children in insertion order. -/
def descendants (t : SymbolTree) (cls : SymbolClass) (s : Nat) : List Nat :=
  (t.get s).children.toList.flatMap (t.walkFrom cls t.size)

/-- In a tree, the walk of the tree is the walk below the root. -/
theorem IsTree.walk_eq_descendants (h : t.IsTree) (cls : SymbolClass) :
    t.walk cls = t.descendants cls 0 := by
  rw [h.walk_eq_filter, h.walkFrom_size_of_lt .any h.nonempty, SymbolClass.accepts_any, if_pos rfl,
    List.singleton_append, List.filter_cons_of_neg (by simp), List.filter_flatMap, descendants]
  refine List.flatMap_congr fun c hc => ?_
  have hparent : (t.get c).parent = some 0 := (h.mem_children 0 c).1 (Array.mem_toList_iff.1 hc)
  rw [← filter_walkFrom_any cls]
  -- the root lies within none of its children, so only the class decides
  refine List.filter_congr fun y hy => ?_
  have hy0 : y ≠ 0 := by
    rintro rfl
    exact h.not_within_child hparent (h.within_of_mem_walkFrom hy).1
  simp [hy0]

/-- The walk below a symbol lists nothing twice. -/
theorem IsTree.nodup_descendants (h : t.IsTree) (cls : SymbolClass) (s : Nat) :
    (t.descendants cls s).Nodup := by
  unfold descendants
  rw [List.nodup_flatMap]
  refine ⟨fun c _ => h.nodup_walkFrom cls _ c, ?_⟩
  refine (h.children_nodup s).pairwise_of_forall_ne fun a ha b hb hne x hxa hxb => ?_
  have hpa := (h.mem_children s a).1 (Array.mem_toList_iff.1 ha)
  have hpb := (h.mem_children s b).1 (Array.mem_toList_iff.1 hb)
  exact hne (h.siblings_eq hpa hpb (h.within_of_mem_walkFrom hxa).1
    (h.within_of_mem_walkFrom hxb).1)

/-- The walk below `s` lists exactly the stored symbols strictly within `s` that the class
accepts. -/
theorem IsTree.mem_descendants (h : t.IsTree) {cls : SymbolClass} {s x : Nat} :
    x ∈ t.descendants cls s ↔
      x ≠ s ∧ x < t.size ∧ t.Within x s ∧ cls.accepts (t.get x).kind := by
  unfold descendants
  constructor
  · intro hx
    obtain ⟨c, hc, hxc⟩ := List.mem_flatMap.1 hx
    have hparent := (h.mem_children s c).1 (Array.mem_toList_iff.1 hc)
    obtain ⟨hw, hacc⟩ := h.within_of_mem_walkFrom hxc
    refine ⟨?_, lt_size_of_within hw (Linked.lt_of_parent hparent),
      hw.trans (Within.of_parent hparent), hacc⟩
    rintro rfl
    exact h.not_within_child hparent hw
  · rintro ⟨hxs, hxlt, ⟨n, hn⟩, hacc⟩
    obtain ⟨d, hd⟩ := h.rooted x hxlt
    have hdlt := h.depth_lt_size hxlt hd
    -- the chain's last link goes from a child `c` of `s` to `s`
    obtain ⟨k, rfl⟩ : ∃ k, n = k + 1 := by
      rcases n with _ | k
      · exact absurd (Option.some.inj hn) hxs
      · exact ⟨k, rfl⟩
    rw [climb_add] at hn
    obtain ⟨c, hc, hcs⟩ := Option.bind_eq_some_iff.1 hn
    have hparent : (t.get c).parent = some s := by rwa [climb_one] at hcs
    -- the chain from `x` to the root passes `s`, so it is longer than `k`
    obtain ⟨e, he⟩ := h.rooted s (h.parent_lt hparent)
    have hlong : t.climb (k + 1 + e) x = some 0 := by
      rw [climb_add, climb_add, hc, Option.bind_some, climb_one, hparent, Option.bind_some, he]
    have := climb_root_unique h.root_parent hlong hd
    exact List.mem_flatMap.2 ⟨c, Array.mem_toList_iff.2 ((h.mem_children s c).2 hparent),
      h.mem_walkFrom hc (by omega) hacc⟩

/-- The walk lists each symbol below the root that the class accepts, once. -/
theorem IsTree.nodup_walk (h : t.IsTree) (cls : SymbolClass) : (t.walk cls).Nodup := by
  rw [h.walk_eq_descendants]
  exact h.nodup_descendants cls 0

theorem IsTree.mem_walk (h : t.IsTree) {cls : SymbolClass} {x : Nat} :
    x ∈ t.walk cls ↔ x ≠ 0 ∧ x < t.size ∧ cls.accepts (t.get x).kind := by
  rw [h.walk_eq_descendants, h.mem_descendants]
  constructor
  · rintro ⟨hx0, hxlt, -, hacc⟩
    exact ⟨hx0, hxlt, hacc⟩
  · rintro ⟨hx0, hxlt, hacc⟩
    exact ⟨hx0, hxlt, h.rooted x hxlt, hacc⟩

end SymbolTree

end Lineage
