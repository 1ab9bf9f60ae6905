import Lineage.Proofs.Tree.Lookup
import Lineage.Proofs.Hierarchy.Resolve
import Lineage.Proofs.Scan.Termination
/-!
Where a name can resolve to.

Resolution at a scope looks among the scope's children, then through its imports, and then
climbs to the container while the scope is a file, a type or a method (`Ascent`). In a tree
each of these searches ends before its fuel does: the walk below a symbol, the members of a
scope and the climb are all bounded by the depth of the tree (`IsTree.walkFrom_succ_of_depth`,
`IsTree.membersWith_succ_of_depth`, `IsTree.resolveFrom_succ_of_depth`). What it finds is
`Visible`: strictly below a scope of the chain, or at or below the source of an import of
such a scope. The chain stops at the first package, module or project, so below such a
scope a name reaches out only through an import (`Visible.within`).

* `IsTree.resolveLocallyWith_fuel`, `IsTree.membersWith_fuel`, `IsTree.resolveFrom_fuel`:
  more fuel changes no search;
* `IsTree.visible_of_mem_resolveFrom`: every candidate is visible;
* `nodup_dedupKeepFirst`: the candidates are listed once each;
* `reachable_resolution_visible`: all of it for every codebase of a corpus a program builds.
-/
namespace Lineage

namespace SymbolTree

variable {t : SymbolTree}

/-! ### The chain a resolution climbs -/

/-- `a` is on the chain of scopes that resolution climbs from `s`: `s` itself, then the
container of each scope of the chain that is a file, a type or a method. -/
inductive Ascent (t : SymbolTree) : Nat → Nat → Prop
  | refl (s : Nat) : Ascent t s s
  | up {s p a : Nat} : (t.get s).isAscendable = true → (t.get s).parent = some p →
      Ascent t p a → Ascent t s a

/-- A symbol that a name read at `s` may reach: strictly below a scope on the chain climbed
from `s`, or at or below the source of an import of such a scope. -/
def Visible (t : SymbolTree) (s d : Nat) : Prop :=
  ∃ a, t.Ascent s a ∧ ((d ≠ a ∧ t.Within d a) ∨ ∃ b ∈ t.bindings a, t.Within d b.source)

/-- A chain that starts inside a scope that is no file, type or method stays inside it. -/
theorem Ascent.within {s a M : Nat} (ha : t.Ascent s a) (hs : t.Within s M) (hM : (t.get M).isAscendable = false) : t.Within a M := by
  induction ha with
  | refl => exact hs
  | @up s p a hasc hp _ ih =>
    apply ih
    -- `s` is not `M`, so its chain to `M` goes through its container `p`
    obtain ⟨n, hn⟩ := hs
    rcases n with _ | n
    · obtain rfl := Option.some.inj hn
      rw [hM] at hasc
      cases hasc
    · rw [climb_succ, hp, Option.bind_some] at hn
      exact ⟨n, hn⟩

/-- Below a scope that is no file, type or method, a name reaches a symbol outside it only
through an import of a scope inside it. -/
theorem Visible.within {s d M : Nat} (hv : t.Visible s d)
    (hs : t.Within s M) (hM : (t.get M).isAscendable = false) :
    t.Within d M ∨ ∃ a, t.Ascent s a ∧ t.Within a M ∧ ∃ b ∈ t.bindings a, t.Within d b.source := by
  obtain ⟨a, ha, hd⟩ := hv
  have haM := ha.within hs hM
  rcases hd with ⟨-, hda⟩ | hb
  · exact .inl (hda.trans haM)
  · exact .inr ⟨a, ha, haM, hb⟩

/-! ### Every search ends before its fuel -/

/-- The members of a symbol at depth `d` are complete once `d` and the fuel reach the size. -/
theorem IsTree.membersWith_succ_of_depth (h : t.IsTree) :
    ∀ (fuel i d : Nat), t.climb d i = some 0 → t.size ≤ d + fuel →
      t.membersWith (fuel + 1) i = t.membersWith fuel i
  | 0, i, d, hd, hle => by
    have hi : i < t.size := lt_size_of_within ⟨d, hd⟩ h.nonempty
    have := h.depth_lt_size hi hd
    omega
  | fuel + 1, i, d, hd, hle => by
    unfold membersWith
    refine List.flatMap_congr fun c hc => ?_
    have hp : (t.get c).parent = some i := (h.mem_children i c).1 (Array.mem_toList_iff.1 hc)
    split
    · exact h.membersWith_succ_of_depth fuel c (d + 1)
        (by rw [Nat.add_comm, climb_add, climb_one, hp, Option.bind_some, hd]) (by omega)
    · rfl

/-- The search among the children of a scope finds the same with any fuel from the size
on. -/
theorem IsTree.resolveLocallyWith_fuel (h : t.IsTree) (cls : SymbolClass) {n : Nat}
    (hn : t.size ≤ n) (s : Nat) (ns : List String) :
    t.resolveLocallyWith cls n s ns = t.resolveLocally cls s ns := by
  rw [resolveLocally, h.resolveLocallyWith_eq, h.resolveLocallyWith_eq]
  congr 1
  refine List.flatMap_congr fun c hc => ?_
  obtain ⟨d, hd⟩ := h.depth_of_mem_children hc
  exact eq_of_succ_eq (F := fun k => t.walkFrom .any k c) (N := t.size)
    (fun k hk => h.walkFrom_succ_of_depth .any k c (d + 1) hd (by omega)) hn (Nat.le_refl _)

/-- The members of a scope are the same with any fuel from the size on. -/
theorem IsTree.membersWith_fuel (h : t.IsTree) {n : Nat} (hn : t.size ≤ n) (s : Nat) :
    t.membersWith n s = t.members s := by
  by_cases hs : s < t.size
  · obtain ⟨d, hd⟩ := h.rooted s hs
    exact eq_of_succ_eq (F := fun k => t.membersWith k s) (N := t.size)
      (fun k hk => h.membersWith_succ_of_depth k s d hd (by omega)) hn (Nat.le_refl _)
  · -- past the end there are no children
    have hdef : t.get s = default := get_of_size_le (Nat.le_of_not_lt hs)
    obtain ⟨n, rfl⟩ : ∃ k, n = k + 1 := ⟨n - 1, by have := h.nonempty; omega⟩
    obtain ⟨m, hm⟩ : ∃ m, t.size = m + 1 := ⟨t.size - 1, by have := h.nonempty; omega⟩
    rw [members, hm]
    simp [membersWith, hdef]

/-- Resolution from a symbol at depth `d` has climbed its whole chain once the fuel passes
`d`. -/
theorem IsTree.resolveFrom_succ_of_depth (h : t.IsTree) (cls : SymbolClass) (ns : List String)
    (fuel : Nat) : ∀ (s d : Nat), t.climb d s = some 0 → d ≤ fuel →
      t.resolveFrom cls (fuel + 2) s ns = t.resolveFrom cls (fuel + 1) s ns := by
  induction fuel with
  | zero =>
    intro s d hd hle
    -- the root has no container to climb to
    obtain rfl : d = 0 := by omega
    obtain rfl : s = 0 := Option.some.inj hd
    simp only [resolveFrom, h.root_parent]
  | succ fuel ih =>
    intro s d hd hle
    rw [resolveFrom, resolveFrom]
    cases hp : (t.get s).parent with
    | none => simp only [hp]
    | some p =>
      rcases d with _ | d
      · obtain rfl : s = 0 := Option.some.inj hd
        rw [h.root_parent] at hp
        cases hp
      · rw [climb_succ, hp, Option.bind_some] at hd
        simp only [hp, ih p d hd (by omega)]

@[simp] theorem default_isAscendable : (default : Symbol).isAscendable = false := rfl

/-- Resolution finds the same with any fuel past the size. -/
theorem IsTree.resolveFrom_fuel (h : t.IsTree) (cls : SymbolClass) {n : Nat}
    (hn : t.size + 1 ≤ n) (s : Nat) (ns : List String) :
    t.resolveFrom cls n s ns = t.resolveFrom cls (t.size + 1) s ns := by
  by_cases hs : s < t.size
  · obtain ⟨d, hd⟩ := h.rooted s hs
    have hdlt := h.depth_lt_size hs hd
    refine eq_of_succ_eq (F := fun k => t.resolveFrom cls k s ns) (N := t.size) (fun k hk => ?_)
      (by omega) (by omega)
    obtain ⟨k, rfl⟩ : ∃ j, k = j + 1 := ⟨k - 1, by have := h.nonempty; omega⟩
    exact h.resolveFrom_succ_of_depth cls ns k s d hd (by omega)
  · -- past the end there is nothing to find and nowhere to climb
    have hdef : t.get s = default := get_of_size_le (Nat.le_of_not_lt hs)
    obtain ⟨n, rfl⟩ : ∃ k, n = k + 1 := ⟨n - 1, by omega⟩
    simp [resolveFrom, hdef, resolveLocally, resolveImported, bindings]

/-! ### What resolution finds -/

/-- The search among the children of `a` finds only symbols strictly below `a`. -/
theorem IsTree.within_of_mem_resolveLocally (h : t.IsTree) {cls : SymbolClass} {a d : Nat}
    {ns : List String} (hd : d ∈ t.resolveLocally cls a ns) : d ≠ a ∧ t.Within d a := by
  rw [h.resolveLocally_eq] at hd
  obtain ⟨hne, -, hw, -⟩ := h.mem_descendants.1 (List.mem_filter.1 hd).1
  exact ⟨hne, hw⟩

/-- The imports of `a` reach only symbols at or below the source of one of them. -/
theorem IsTree.within_of_mem_resolveImported (h : t.IsTree) {cls : SymbolClass} {a d : Nat}
    {ns : List String} (hd : d ∈ t.resolveImported cls a ns) :
    ∃ b ∈ t.bindings a, t.Within d b.source := by
  simp only [resolveImported, List.mem_flatMap] at hd
  obtain ⟨b, hb, hd⟩ := hd
  refine ⟨b, hb, ?_⟩
  -- the binding names the symbol itself, or a scope the rest of the name is read in
  split at hd
  · split at hd
    · split at hd
      · obtain rfl := List.mem_singleton.1 hd
        exact Within.refl _ _
      · cases hd
    · exact (h.within_of_mem_resolveLocally hd).2
  · cases hd

/-- Every candidate of a resolution is visible from the scope it starts at. -/
theorem IsTree.visible_of_mem_resolveFrom (h : t.IsTree) (cls : SymbolClass) (ns : List String) :
    ∀ (fuel s d : Nat), d ∈ t.resolveFrom cls fuel s ns → t.Visible s d
  | 0, _, _, hd => by simp [resolveFrom] at hd
  | fuel + 1, s, d, hd => by
    unfold resolveFrom at hd
    split at hd
    · cases hd
    · simp only [List.mem_append] at hd
      rcases hd with (hd | hd) | hd
      · exact ⟨s, .refl s, .inl (h.within_of_mem_resolveLocally hd)⟩
      · exact ⟨s, .refl s, .inr (h.within_of_mem_resolveImported hd)⟩
      · -- found from the container: the chain goes on one link up
        cases hasc : (t.get s).isAscendable
        · simp [hasc] at hd
        · cases hp : (t.get s).parent with
          | none => simp [hasc, hp] at hd
          | some p =>
            simp only [hasc, hp, if_true] at hd
            obtain ⟨a, ha, hda⟩ := h.visible_of_mem_resolveFrom cls ns fuel p d hd
            exact ⟨a, .up hasc hp ha, hda⟩

/-- Keeping each element at its first place leaves no repeats. -/
theorem nodup_dedupKeepFirst (xs : List Nat) : (dedupKeepFirst xs).Nodup := by
  unfold dedupKeepFirst
  rw [List.nodup_reverse]
  -- what the fold has seen is what it has kept, and that holds no repeats
  suffices ∀ (ys : List Nat) (acc : List Nat × List Nat), acc.1 = acc.2 → acc.2.Nodup →
      (ys.foldl (fun acc y =>
        if acc.1.contains y then acc else (y :: acc.1, y :: acc.2)) acc).2.Nodup by
    simpa using this xs ([], []) rfl List.nodup_nil
  intro ys
  induction ys with
  | nil => exact fun _ _ hnd => hnd
  | cons y ys ih =>
    intro acc heq hnd
    obtain ⟨seen, out⟩ := acc
    dsimp only at heq hnd
    subst heq
    rw [List.foldl_cons]
    by_cases hc : seen.contains y = true
    · rw [if_pos hc]
      exact ih _ rfl hnd
    · rw [if_neg hc]
      exact ih _ rfl (List.nodup_cons.2 ⟨by simpa using hc, hnd⟩)

theorem nodup_resolve (t : SymbolTree) (cls : SymbolClass) (s : Nat) (ns : List String) :
    (t.resolve cls s ns).Nodup :=
  nodup_dedupKeepFirst _

end SymbolTree

theorem NameRef.nodup_resolve (r : NameRef) (t : SymbolTree) (cls : SymbolClass) :
    (r.resolve t cls).Nodup := by
  unfold NameRef.resolve
  -- the name is read from its scope or its scope's container, when there is one
  cases (if r.within then some r.scope else (t.symbols[r.scope]?).bind (·.parent)) with
  | none => exact List.nodup_nil
  | some scope => exact t.nodup_resolve cls scope r.names

open SymbolTree

/-- In every codebase of a corpus a program builds, resolution ends before its fuel does:
the climb to the containers, the search below a scope and the members of a scope come out
the same with any more fuel. It lists no symbol twice, also for a name read from its scope's
container, and lists only stored symbols below the root that the class accepts. Each lies
strictly below a scope on the chain climbed from the start, or at or below the source of
an import of such a scope; so from inside a package, a module or the project, a name reaches
outside it only through an import of a scope inside it. -/
theorem reachable_resolution_visible {c : Corpus} (hc : c.Reachable) :
    ∀ cb ∈ c.codebases, ∀ (cls : SymbolClass) (s : Nat) (ns : List String),
      (∀ n, cb.tree.size + 1 ≤ n →
        cb.tree.resolveFrom cls n s ns = cb.tree.resolveFrom cls (cb.tree.size + 1) s ns) ∧
      (∀ n, cb.tree.size ≤ n → ∀ a ns',
        cb.tree.resolveLocallyWith cls n a ns' = cb.tree.resolveLocally cls a ns') ∧
      (∀ n, cb.tree.size ≤ n → ∀ a, cb.tree.membersWith n a = cb.tree.members a) ∧
      (cb.tree.resolve cls s ns).Nodup ∧ (∀ r : NameRef, (r.resolve cb.tree cls).Nodup) ∧
      ∀ d ∈ cb.tree.resolve cls s ns, cls.accepts (cb.tree.get d).kind = true ∧
        d < cb.tree.size ∧ cb.tree.Within d 0 ∧ cb.tree.Visible s d ∧
        ∀ M, cb.tree.Within s M → (cb.tree.get M).isAscendable = false →
          cb.tree.Within d M ∨ ∃ a, cb.tree.Ascent s a ∧ cb.tree.Within a M ∧
            ∃ b ∈ cb.tree.bindings a, cb.tree.Within d b.source := by
  intro cb hcb cls s ns
  have h := (hc.shaped cb hcb).isTree
  refine ⟨fun n hn => h.resolveFrom_fuel cls hn s ns,
    fun n hn a ns' => h.resolveLocallyWith_fuel cls hn a ns',
    fun n hn a => h.membersWith_fuel hn a, cb.tree.nodup_resolve cls s ns,
    fun r => r.nodup_resolve cb.tree cls, fun d hd => ?_⟩
  obtain ⟨-, hlt, hacc⟩ := resolve_candidate (hc.shaped cb hcb).toLinked hd
  have hv := h.visible_of_mem_resolveFrom cls ns _ s d (mem_of_mem_dedupKeepFirst hd)
  exact ⟨hacc, hlt, h.rooted d hlt, hv, fun M hs hM => hv.within hs hM⟩

/-- A Python corpus of a module importing a class from another: every resolution in it is
visible from where it starts. -/
theorem shop_resolution_visible :
    (Corpus.addFile (Corpus.addFile { name := "shop", languages := ["python"] } "shop/base.py"
      "class Item: pass\n").1 "shop/cart.py"
      "from shop.base import Item\nclass Cart(Item): pass\n").1.Reachable ∧
    ∀ cb ∈ (Corpus.addFile (Corpus.addFile { name := "shop", languages := ["python"] }
      "shop/base.py" "class Item: pass\n").1 "shop/cart.py"
      "from shop.base import Item\nclass Cart(Item): pass\n").1.codebases,
      ∀ d ∈ cb.tree.resolve .type 3 ["Item"], cb.tree.Visible 3 d := by
  have hc := Corpus.Reachable.addFile "shop/cart.py"
    "from shop.base import Item\nclass Cart(Item): pass\n"
    (Corpus.Reachable.addFile "shop/base.py" "class Item: pass\n" (.new "shop" ["python"]))
  exact ⟨hc, fun cb hcb d hd =>
    ((reachable_resolution_visible hc cb hcb .type 3 ["Item"]).2.2.2.2.2 d hd).2.2.2.1⟩

end Lineage
