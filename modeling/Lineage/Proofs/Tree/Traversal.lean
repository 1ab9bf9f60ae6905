import Lineage.Proofs.Tree.Visibility
/-!
Traversals of a tree: the walk and the members of a scope.

`walk` runs a loop over an explicit stack that starts with the root: it pops a symbol, lists
it, and pushes its children in reverse. Read from the top, the stack is the list of subtrees
still to be listed, so in a tree the loop lists the recursive pre-order from the root
(`IsTree.walk_eq_filter`); the recursion is complete once its fuel reaches the size.

The members of a scope are its children, each file replaced by its own members, at any depth.
In a tree they are the symbols below the scope, in pre-order, that are reached through files
only (`Member`), and a wildcard import binds, under its own name, each member that its rule
exports of each scope that its path names.

* `IsTree.walk_eq_preorder`: the loop lists the pre-order, the root apart, and every stored
  symbol but the root once;
* `IsTree.member_child`, `IsTree.member_below`: what being a member asks of a child, and of a
  symbol below a child;
* `IsTree.membersWith_eq`: the members with fuel `n` are a filter of the walk with fuel `n`,
  by induction on the fuel;
* `IsTree.wildcard_binds_exported_members`: what a wildcard import binds.
-/
namespace Lineage

/-- A codebase of a corpus that a program builds, or a fresh one past the end, is a tree. -/
theorem Corpus.Reachable.tree_isTree {c : Corpus} (hc : c.Reachable) (i : Nat) (l : Language)
    (name language : String) :
    (c.codebases[i]?.getD ⟨l, SymbolTree.new name language, 0⟩).tree.IsTree :=
  (Corpus.getD_shaped hc.shaped i _ (SymbolTree.shaped_new name language)).isTree

namespace SymbolTree

variable {t : SymbolTree}

/-! ### The walk -/

/-- In a tree, the loop over a stack that `walk` runs lists what the recursive pre-order from
the root lists with any fuel from the size on, less the root and what the class refuses; the
walk for any class lists every stored symbol but the root, once. -/
theorem IsTree.walk_eq_preorder (h : t.IsTree) :
    (∀ cls n, t.size ≤ n → t.walk cls =
      (t.walkFrom .any n 0).filter fun x => x != 0 && cls.accepts (t.get x).kind) ∧
    (t.walk .any).Nodup ∧ ∀ x, x ∈ t.walk .any ↔ 0 < x ∧ x < t.size := by
  refine ⟨fun cls n hn => ?_, h.nodup_walk .any, fun x => ?_⟩
  · -- the root lies at depth zero, so fuel past the size changes nothing
    have hfuel : t.walkFrom .any n 0 = t.walkFrom .any t.size 0 :=
      eq_of_succ_eq (F := fun k => t.walkFrom .any k 0) (N := t.size)
        (fun k hk => h.walkFrom_succ_of_depth .any k 0 0 (climb_zero t 0) (by omega)) hn
        (Nat.le_refl _)
    rw [hfuel, h.walk_eq_filter]
  · simp [h.mem_walk, Nat.pos_iff_ne_zero]

end SymbolTree

open SymbolTree in
/-- The tree of a Java file holding a class with a nested class and a method is a tree, and
its walk lists its pre-order. -/
theorem nested_walk_eq_preorder :
    ∃ t : SymbolTree, t = ((Corpus.addFile { name := "project", languages := ["java"] }
        "A.java" "class A { class B { void m() {} } }\n").1.codebases[0]?.getD
          (⟨.java, SymbolTree.new "project" "java", 0⟩ : Codebase)).tree ∧ t.IsTree ∧
      (∀ cls n, t.size ≤ n → t.walk cls =
        (t.walkFrom .any n 0).filter fun x => x != 0 && cls.accepts (t.get x).kind) ∧
      (t.walk .any).Nodup ∧ ∀ x, x ∈ t.walk .any ↔ 0 < x ∧ x < t.size := by
  have h := (Corpus.Reachable.addFile "A.java" "class A { class B { void m() {} } }\n"
    (.new "project" ["java"])).tree_isTree 0 .java "project" "java"
  exact ⟨_, rfl, h, IsTree.walk_eq_preorder h⟩

namespace SymbolTree

variable {t : SymbolTree}

/-! ### Members -/

/-- `d` is a member of the scope `s`: it lies strictly within `s`, it is no file, and every
symbol on the path from `s` down to it, `d` apart, is a file. -/
def Member (t : SymbolTree) (s d : Nat) : Prop :=
  s ∈ t.ancestors d ∧ (t.get d).isTransparent = false ∧
    ∀ x ∈ t.pathFrom s d, x ≠ d → (t.get x).isTransparent = true

instance (s : Nat) : DecidablePred (t.Member s) :=
  fun _ => inferInstanceAs (Decidable (_ ∧ _ ∧ _))

/-- A child of `s` is a member of `s` exactly when it is no file. -/
theorem IsTree.member_child (h : t.IsTree) {s c : Nat} (hc : (t.get c).parent = some s) :
    t.Member s c ↔ (t.get c).isTransparent = false := by
  obtain ⟨hanc, hpath⟩ := h.path_child hc
  unfold Member
  rw [hpath]
  simp [hanc]

/-- A symbol strictly within a child `c` of `s` is a member of `s` exactly when `c` is a file
and the symbol is a member of `c`. -/
theorem IsTree.member_below (h : t.IsTree) {s c d n : Nat} (hc : (t.get c).parent = some s)
    (hd : t.climb (n + 1) d = some c) :
    t.Member s d ↔ (t.get c).isTransparent = true ∧ t.Member c d := by
  obtain ⟨hdc, hancs, hancc⟩ := h.below_child hc hd
  unfold Member
  rw [h.pathFrom_child hc hd]
  simp only [List.mem_cons, forall_eq_or_imp, hancs, hancc, true_and, ne_eq, Ne.symm hdc,
    not_false_eq_true, forall_const]
  constructor
  · rintro ⟨hdf, hcf, hrest⟩
    exact ⟨hcf, hdf, hrest⟩
  · rintro ⟨hcf, hdf, hrest⟩
    exact ⟨hdf, hcf, hrest⟩

/-- The members of `s` with fuel `fuel` are, in the order of the walk below `s` with the same
fuel, the symbols that are members of `s`. -/
theorem IsTree.membersWith_eq (h : t.IsTree) :
    ∀ (fuel s : Nat), t.membersWith fuel s =
      ((t.get s).children.toList.flatMap (t.walkFrom .any fuel)).filter
        fun d => decide (t.Member s d)
  | 0, s => by simp [membersWith, walkFrom]
  | fuel + 1, s => by
    rw [membersWith, List.filter_flatMap]
    refine List.flatMap_congr fun c hc => ?_
    have hcs : (t.get c).parent = some s := (h.mem_children s c).1 (Array.mem_toList_iff.1 hc)
    have hbelow : ∀ d ∈ (t.get c).children.toList.flatMap (t.walkFrom .any fuel),
        ∃ n, t.climb (n + 1) d = some c := fun d hd => h.climb_of_mem_walk hd
    -- a child contributes itself, then what lies below it
    rw [walkFrom_succ, SymbolClass.accepts_any, if_pos rfl, List.filter_append,
      List.filter_singleton]
    by_cases hfile : (t.get c).isTransparent
    · -- a file is no member, and what lies below it is a member of `s` as it is of the file
      have hself : ¬ t.Member s c := fun hm => by simp [(h.member_child hcs).1 hm] at hfile
      rw [if_pos hfile, decide_eq_false hself, cond_false, List.nil_append,
        h.membersWith_eq fuel c]
      exact List.filter_congr fun d hd => by
        obtain ⟨n, hn⟩ := hbelow d hd
        rw [decide_eq_decide, h.member_below hcs hn, and_iff_right hfile]
    · -- any other child is a member, and nothing below it is
      simp only [Bool.not_eq_true] at hfile
      have hself : t.Member s c := (h.member_child hcs).2 hfile
      have hnone : ((t.get c).children.toList.flatMap (t.walkFrom .any fuel)).filter
          (fun d => decide (t.Member s d)) = [] := by
        refine List.filter_eq_nil_iff.2 fun d hd hm => ?_
        obtain ⟨n, hn⟩ := hbelow d hd
        have := ((h.member_below hcs hn).1 (of_decide_eq_true hm)).1
        rw [hfile] at this
        cases this
      rw [if_neg (by simp [hfile]), decide_eq_true hself, cond_true, hnone]
      rfl

/-- The members of a scope are, in the order of the walk below it, the symbols below it that
are reached through files only. -/
theorem IsTree.members_eq (h : t.IsTree) (s : Nat) :
    t.members s = (t.descendants .any s).filter fun d => decide (t.Member s d) :=
  h.membersWith_eq t.size s

/-! ### Wildcard imports -/

/-- A wildcard import binds each exported member of each scope its path names, under the
member's own name. -/
theorem evaluate_wildcard (path : List String) (rule : ExportRule) :
    t.evaluate (.wildcard path rule) =
      (((t.lookup path).flatMap t.members).filter fun m => exports rule (t.get m)).map
        fun m => ⟨[(t.get m).name], m⟩ := by
  rw [evaluate]
  induction (t.lookup path).flatMap t.members with
  | nil => rfl
  | cons m ms ih =>
    rw [List.filterMap_cons, List.filter_cons]
    cases hm : exports rule (t.get m) <;> simp [hm, ih]

/-- In a tree, the members of a scope are the symbols below it, in pre-order, reached through
files only; a wildcard import binds, in that order for each scope its path names, each member
its rule exports under the member's own name; and no such binding is dropped as nameless. -/
theorem IsTree.wildcard_binds_exported_members (h : t.IsTree) :
    (∀ s, t.members s = (t.descendants .any s).filter fun d => decide (t.Member s d)) ∧
    ∀ path rule, t.evaluate (.wildcard path rule) =
        (t.lookup path).flatMap (fun s => ((t.descendants .any s).filter
          fun d => decide (t.Member s d) && exports rule (t.get d)).map
            fun d => ⟨[(t.get d).name], d⟩) ∧
      (t.evaluate (.wildcard path rule)).filter (fun b => !b.localName.isEmpty) =
        t.evaluate (.wildcard path rule) := by
  refine ⟨h.members_eq, fun path rule => ⟨?_, ?_⟩⟩
  · rw [evaluate_wildcard, List.filter_flatMap, List.map_flatMap]
    refine List.flatMap_congr fun s _ => ?_
    rw [h.members_eq, List.filter_filter]
    congr 1
    exact List.filter_congr fun d _ => Bool.and_comm _ _
  · rw [List.filter_eq_self]
    intro b hb
    rw [evaluate_wildcard] at hb
    obtain ⟨m, -, rfl⟩ := List.mem_map.1 hb
    rfl

end SymbolTree

open SymbolTree in
/-- The tree of a Java package `p` with a public class in one file and a package-private
class in another is a tree, and its wildcard imports bind the exported members. -/
theorem package_wildcard_binds_exported_members :
    ∃ t : SymbolTree, t = (((Corpus.addFile { name := "project", languages := ["java"] }
        "p/A.java" "package p;\npublic class A {}\n").1.addFile
          "p/B.java" "package p;\nclass B {}\n").1.codebases[0]?.getD
          (⟨.java, SymbolTree.new "project" "java", 0⟩ : Codebase)).tree ∧ t.IsTree ∧
      (∀ s, t.members s = (t.descendants .any s).filter fun d => decide (t.Member s d)) ∧
      ∀ path rule, t.evaluate (.wildcard path rule) =
          (t.lookup path).flatMap (fun s => ((t.descendants .any s).filter
            fun d => decide (t.Member s d) && exports rule (t.get d)).map
              fun d => ⟨[(t.get d).name], d⟩) ∧
        (t.evaluate (.wildcard path rule)).filter (fun b => !b.localName.isEmpty) =
          t.evaluate (.wildcard path rule) := by
  have h := (Corpus.Reachable.addFile "p/B.java" "package p;\nclass B {}\n"
    (Corpus.Reachable.addFile "p/A.java" "package p;\npublic class A {}\n"
      (.new "project" ["java"]))).tree_isTree 0 .java "project" "java"
  exact ⟨_, rfl, h, IsTree.wildcard_binds_exported_members h⟩

end Lineage
