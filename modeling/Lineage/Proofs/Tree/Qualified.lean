import Lineage.Proofs.Tree.Lookup
import Lineage.Proofs.Tree.Growth
/-!
Dotted names and the scopes declarations lie in.

The dotted name of a symbol joins the names on its chain up to the root, leaving out the
project and the files (`SymbolTree.qualifiedName`); `SymbolTree.nameParts` is the list it
joins. A declaration's place among the packages is its nearest container that is no file
(`SymbolTree.outerScope?`). In a tree, a symbol's dotted name is that of its nearest
container that is no file, then its own name (`IsTree.nameParts_of_outerScope`), and the
dotted name of a package scope is its path (`IsTree.nameParts_packageAt`).

Growing a tree keeps the nearest container of every old symbol (`Keeps.outerScope?`).
-/
namespace Lineage

namespace Symbol

/-- Whether the symbol's name is part of the dotted names below it: all but the project and
files. -/
def inQualifiedName (s : Symbol) : Bool :=
  match s.kind with
  | .project _ | .file => false
  | _ => true

end Symbol

namespace SymbolTree

variable {t t' : SymbolTree}

/-- The names a symbol's dotted name joins: those on its chain up to the root that are part
of dotted names, outermost first. -/
def nameParts (t : SymbolTree) (x : Nat) : List String :=
  ((x :: t.ancestors x).filter fun a => (t.get a).inQualifiedName).reverse.map
    fun a => (t.get a).name

theorem qualifiedName_eq_nameParts (x : Nat) :
    t.qualifiedName x = ".".intercalate (t.nameParts x) := rfl

/-- The nearest container of a symbol that is no file. -/
def outerScope? (t : SymbolTree) (x : Nat) : Option Nat :=
  (t.ancestors x).find? fun a => !(t.get a).isTransparent

/-! ### Reading up the chain -/

theorem IsTree.nameParts_of_parent (h : t.IsTree) {x p : Nat} (hp : (t.get x).parent = some p) :
    t.nameParts x =
      t.nameParts p ++ if (t.get x).inQualifiedName then [(t.get x).name] else [] := by
  unfold nameParts
  rw [h.ancestors_of_parent hp, List.filter_cons]
  split <;> simp

theorem IsTree.nameParts_root (h : t.IsTree) : t.nameParts 0 = [] := by
  obtain ⟨l, hl⟩ := h.root_project
  unfold nameParts
  rw [h.ancestors_of_parent_none h.root_parent]
  simp [Symbol.inQualifiedName, hl]

/-- The dotted name of a package scope is its path. -/
theorem IsTree.nameParts_packageAt (h : t.IsTree) {a : Nat} {ns : List String}
    (ha : t.PackageAt a ns) : t.nameParts a = ns := by
  induction ha with
  | root => exact h.nameParts_root
  | child _ hpar hpkg ih =>
    rw [h.nameParts_of_parent hpar, ih, if_pos]
    revert hpkg
    simp only [Symbol.inQualifiedName]
    cases (t.get _).kind <;> simp [SymbolClass.accepts]

theorem IsTree.outerScope?_of_parent (h : t.IsTree) {x p : Nat}
    (hp : (t.get x).parent = some p) :
    t.outerScope? x = if (t.get p).isTransparent then t.outerScope? p else some p := by
  unfold outerScope?
  rw [h.ancestors_of_parent hp, List.find?_cons]
  cases (t.get p).isTransparent <;> rfl

theorem IsTree.outerScope?_of_parent_none (h : t.IsTree) {x : Nat}
    (hp : (t.get x).parent = none) : t.outerScope? x = none := by
  unfold outerScope?
  rw [h.ancestors_of_parent_none hp]
  rfl

/-- A parent that is no file is the nearest container that is no file. -/
theorem IsTree.outerScope?_of_parent_opaque (h : t.IsTree) {x p : Nat}
    (hp : (t.get x).parent = some p) (hnf : (t.get p).isTransparent = false) :
    t.outerScope? x = some p := by
  rw [h.outerScope?_of_parent hp, if_neg (by simp [hnf])]

/-- Every stored symbol but the root has a parent. -/
theorem IsTree.exists_parent (h : t.IsTree) {x : Nat} (hx : x < t.size) (hx0 : x ≠ 0) :
    ∃ p, (t.get x).parent = some p := by
  obtain ⟨d, hd⟩ := h.rooted x hx
  rcases d with _ | d
  · exact absurd (Option.some.inj hd) hx0
  · rw [climb_succ] at hd
    obtain ⟨p, hp, -⟩ := Option.bind_eq_some_iff.1 hd
    exact ⟨p, hp⟩

/-- The nearest container that is no file is stored. -/
theorem IsTree.outerScope?_lt (h : t.IsTree) {x a : Nat} (ha : t.outerScope? x = some a) :
    a < t.size := by
  have hmem : a ∈ t.ancestors x := List.mem_of_find?_eq_some ha
  obtain ⟨n, hn⟩ := h.mem_ancestors.1 hmem
  -- a symbol with a container has a parent, so it is stored
  have hx : x < t.size := by
    rw [climb_succ] at hn
    obtain ⟨p, hp, -⟩ := Option.bind_eq_some_iff.1 hn
    exact Linked.lt_of_parent hp
  exact h.lt_of_climb hx hn

/-- A symbol's dotted name is that of its nearest container that is no file, then its own
name if it counts: the files in between count for nothing. -/
theorem IsTree.nameParts_of_outerScope (h : t.IsTree) {x a : Nat}
    (ha : t.outerScope? x = some a) :
    t.nameParts x =
      t.nameParts a ++ if (t.get x).inQualifiedName then [(t.get x).name] else [] := by
  have hx : x < t.size := by
    by_contra hx
    rw [h.outerScope?_of_parent_none (by rw [get_of_size_le (Nat.le_of_not_lt hx)]; rfl)] at ha
    cases ha
  obtain ⟨d, hd⟩ := h.rooted x hx
  -- induction on the length of the chain up to the root
  induction d generalizing x with
  | zero =>
    obtain rfl : x = 0 := by simpa using hd
    rw [h.outerScope?_of_parent_none h.root_parent] at ha
    cases ha
  | succ d ih =>
    rw [climb_succ] at hd
    obtain ⟨p, hp, hrest⟩ := Option.bind_eq_some_iff.1 hd
    rw [h.outerScope?_of_parent hp] at ha
    rw [h.nameParts_of_parent hp]
    split at ha
    · rename_i hfile
      -- a file between counts for nothing
      have hnot : (t.get p).inQualifiedName = false := by
        revert hfile
        simp only [Symbol.isTransparent, Symbol.inQualifiedName]
        cases (t.get p).kind <;> simp
      rw [ih ha (h.parent_lt hp) hrest, if_neg (by simp [hnot]), List.append_nil]
    · obtain rfl := Option.some.inj ha
      rfl

/-! ### Growing a tree -/

/-- Growing a tree keeps the nearest container of every old symbol that is no file. -/
theorem Keeps.outerScope? (hk : t.Keeps t') (h : t.IsTree) (h' : t'.IsTree) {x : Nat}
    (hx : x < t.size) : t'.outerScope? x = t.outerScope? x := by
  obtain ⟨d, hd⟩ := h.rooted x hx
  -- induction on the length of the chain up to the root, which both trees share
  induction d generalizing x with
  | zero =>
    obtain rfl : x = 0 := by simpa using hd
    rw [h.outerScope?_of_parent_none h.root_parent, h'.outerScope?_of_parent_none h'.root_parent]
  | succ d ih =>
    rw [climb_succ] at hd
    obtain ⟨p, hp, hrest⟩ := Option.bind_eq_some_iff.1 hd
    have hpl := h.parent_lt hp
    have hkp := hk.kept p hpl
    have htr : (t'.get p).isTransparent = (t.get p).isTransparent := by
      simp only [Symbol.isTransparent, hkp.kind]
    rw [h.outerScope?_of_parent hp, h'.outerScope?_of_parent ((hk.kept x hx).parent.trans hp),
      ih hpl hrest, htr]

end SymbolTree

end Lineage
