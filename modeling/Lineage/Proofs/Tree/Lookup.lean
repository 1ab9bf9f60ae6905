import Lineage.Symbol.Resolve
import Lineage.Proofs.Tree.Walk
import Lineage.Proofs.Corpus
import Mathlib.Data.List.TakeWhile
/-!
Looking dotted names up below a scope.

`resolveLocally` reads a dotted name among the children of a scope: a file passes the name
on to its own children, and any other symbol must carry the first component; it is then the
answer, when no component is left and the class accepts it, or, when it is a package or a
type, the rest of the name is read among its children. In a tree this search is a filter
over the walk below the scope (`IsTree.resolveLocally_eq`). It lists, in pre-order and once
each, the symbols that the name names there (`Names`): a symbol strictly within the scope
that is no file and that the class accepts, such that on the path from the scope down to it
the symbols that are no files carry the components of the name in order, and all of them
but the last are packages or types.

A lookup is the search among the children of the root for any class. Reading back the dotted
name of a symbol (`qualifiedName`, then `dottedParts`) gives the names on its path when they
are plain (`PlainName`), so every symbol that is neither a file nor a project and lies below
packages and types only is found again by looking up its dotted name
(`IsTree.mem_lookup_qualifiedName`). The root is a project, and its dotted name is empty.

* `IsTree.ancestors_of_parent`, `IsTree.pathFrom_child`: the chain of containers and the path
  from a scope, one link at a time;
* `IsTree.names_child`, `IsTree.names_below`: what naming a child of a scope, or a symbol
  below it, asks of the child;
* `IsTree.resolveLocallyWith_eq`: the search with fuel `n` is the filter over the walk with
  fuel `n`, by induction on the fuel.
-/
namespace Lineage

namespace SymbolTree

variable {t : SymbolTree}

/-! ### Paths -/

/-- The symbols from just below `s` down to `d`, top-down: the path that a dotted name read
among the children of `s` follows to reach `d`. -/
def pathFrom (t : SymbolTree) (s d : Nat) : List Nat :=
  ((d :: t.ancestors d).takeWhile (· != s)).reverse

/-- The symbols of a path that take a component of a dotted name: all but the files. -/
def named (t : SymbolTree) (path : List Nat) : List Nat :=
  path.filter fun x => !(t.get x).isTransparent

/-- The dotted name `ns`, read among the children of `s`, names `d` for the class `cls`: `d`
lies strictly within `s`, is no file and is accepted; the symbols on the path from `s` to
`d` that are no files carry the components of `ns` in order, and each of them but `d` is a
package or a type. -/
def Names (t : SymbolTree) (cls : SymbolClass) (s : Nat) (ns : List String) (d : Nat) : Prop :=
  s ∈ t.ancestors d ∧ (t.get d).isTransparent = false ∧ cls.accepts (t.get d).kind = true ∧
    (t.named (t.pathFrom s d)).map (fun x => (t.get x).name) = ns ∧
    ∀ x ∈ t.named (t.pathFrom s d), x ≠ d → (t.get x).isDescendable = true

instance (cls : SymbolClass) (s : Nat) (ns : List String) : DecidablePred (t.Names cls s ns) :=
  fun _ => inferInstanceAs (Decidable (_ ∧ _ ∧ _ ∧ _ ∧ _))

@[simp] theorem named_nil : t.named [] = [] := rfl

theorem named_cons (x : Nat) (path : List Nat) :
    t.named (x :: path) = if (t.get x).isTransparent then t.named path else x :: t.named path := by
  unfold named
  rw [List.filter_cons]
  cases (t.get x).isTransparent <;> rfl

theorem named_append (p q : List Nat) : t.named (p ++ q) = t.named p ++ t.named q :=
  List.filter_append p q

/-! ### Chains of containers in a tree -/

/-- Once the fuel covers the chain from `y` to the root, more fuel lists the same chain. -/
theorem ancestorsFrom_stable (h : (t.get 0).parent = none) :
    ∀ {d y : Nat}, t.climb d y = some 0 → ∀ {f : Nat}, d ≤ f →
      t.ancestorsFrom f y = t.ancestorsFrom d y
  | 0, y, hy, f, _ => by
    obtain rfl : y = 0 := by simpa using hy
    cases f <;> simp [ancestorsFrom, h]
  | d + 1, y, hy, f, hf => by
    rw [climb_succ] at hy
    obtain ⟨q, hq, hrest⟩ := Option.bind_eq_some_iff.1 hy
    obtain ⟨f, rfl⟩ : ∃ f', f = f' + 1 := ⟨f - 1, by omega⟩
    simp only [ancestorsFrom, hq, ancestorsFrom_stable h hrest (by omega : d ≤ f)]

theorem IsTree.ancestors_of_parent (h : t.IsTree) {x p : Nat} (hp : (t.get x).parent = some p) :
    t.ancestors x = p :: t.ancestors p := by
  have hx := Linked.lt_of_parent hp
  obtain ⟨d, hd⟩ := h.rooted x hx
  have hdlt := h.depth_lt_size hx hd
  -- the chain from `x` to the root goes on from `p`
  obtain ⟨e, rfl⟩ : ∃ e, d = e + 1 := by
    rcases d with _ | e
    · obtain rfl := Option.some.inj hd
      rw [h.root_parent] at hp
      cases hp
    · exact ⟨e, rfl⟩
  rw [climb_succ, hp, Option.bind_some] at hd
  obtain ⟨k, hk⟩ : ∃ k, t.size = k + 1 := ⟨t.size - 1, by omega⟩
  unfold ancestors
  rw [hk, ancestorsFrom, hp]
  simp only
  rw [ancestorsFrom_stable h.root_parent hd (by omega : e ≤ k),
    ancestorsFrom_stable h.root_parent hd (by omega : e ≤ k + 1)]

theorem IsTree.ancestors_of_parent_none (h : t.IsTree) {x : Nat} (hp : (t.get x).parent = none) :
    t.ancestors x = [] := by
  obtain ⟨k, hk⟩ : ∃ k, t.size = k + 1 := ⟨t.size - 1, by have := h.nonempty; omega⟩
  unfold ancestors
  rw [hk, ancestorsFrom, hp]

/-- The containers of `x` are the symbols one or more parent links above it. -/
theorem IsTree.mem_ancestors (h : t.IsTree) {x y : Nat} :
    y ∈ t.ancestors x ↔ ∃ n, t.climb (n + 1) x = some y := by
  by_cases hx : x < t.size
  · obtain ⟨d, hd⟩ := h.rooted x hx
    induction d generalizing x with
    | zero =>
      obtain rfl : x = 0 := by simpa using hd
      rw [h.ancestors_of_parent_none h.root_parent]
      simp [climb_succ, h.root_parent]
    | succ d ih =>
      rw [climb_succ] at hd
      obtain ⟨p, hp, hrest⟩ := Option.bind_eq_some_iff.1 hd
      rw [h.ancestors_of_parent hp, List.mem_cons, ih (h.parent_lt hp) hrest]
      constructor
      · rintro (rfl | ⟨n, hn⟩)
        · exact ⟨0, by simp [climb_succ, hp]⟩
        · exact ⟨n + 1, by rw [climb_succ, hp, Option.bind_some]; exact hn⟩
      · rintro ⟨n, hn⟩
        rw [climb_succ, hp, Option.bind_some] at hn
        rcases n with _ | n
        · exact Or.inl (Option.some.inj hn).symm
        · exact Or.inr ⟨n, hn⟩
  · have hnone : (t.get x).parent = none := by rw [get_of_size_le (by omega)]; rfl
    rw [h.ancestors_of_parent_none hnone]
    simp [climb_succ, hnone]

/-- A container of `x` is a symbol that `x` lies within, other than `x`. -/
theorem IsTree.mem_ancestors_iff_within (h : t.IsTree) {x y : Nat} (hx : x < t.size) :
    y ∈ t.ancestors x ↔ x ≠ y ∧ t.Within x y := by
  rw [h.mem_ancestors]
  constructor
  · rintro ⟨n, hn⟩
    refine ⟨?_, ⟨n + 1, hn⟩⟩
    rintro rfl
    -- a symbol above itself would give two lengths to its chain to the root
    obtain ⟨d, hd⟩ := h.rooted x hx
    have hloop : t.climb (n + 1 + d) x = some 0 := by rw [climb_add, hn, Option.bind_some, hd]
    have := climb_root_unique h.root_parent hloop hd
    omega
  · rintro ⟨hne, n, hn⟩
    rcases n with _ | n
    · exact absurd (Option.some.inj hn) hne
    · exact ⟨n, hn⟩

/-! ### Paths in a tree -/

@[simp] theorem pathFrom_self (s : Nat) : t.pathFrom s s = [] := by
  simp [pathFrom]

theorem IsTree.pathFrom_of_parent (h : t.IsTree) {s d p : Nat} (hds : d ≠ s)
    (hp : (t.get d).parent = some p) : t.pathFrom s d = t.pathFrom s p ++ [d] := by
  unfold pathFrom
  rw [h.ancestors_of_parent hp, List.takeWhile_cons_of_pos (by simpa using hds)]
  simp

/-- A child is not its own parent. -/
theorem IsTree.ne_of_parent (h : t.IsTree) {c s : Nat} (hc : (t.get c).parent = some s) :
    c ≠ s := by
  rintro rfl
  exact h.not_within_child hc (Within.refl _ _)

/-- Below a child `c` of `s`, the path from `s` is `c` followed by the path from `c`. -/
theorem IsTree.pathFrom_child (h : t.IsTree) {s c : Nat} (hc : (t.get c).parent = some s) :
    ∀ {n d : Nat}, t.climb n d = some c → t.pathFrom s d = c :: t.pathFrom c d
  | 0, d, hd => by
    obtain rfl : d = c := by simpa using hd
    rw [h.pathFrom_of_parent (h.ne_of_parent hc) hc, pathFrom_self, pathFrom_self]
    rfl
  | n + 1, d, hd => by
    rw [climb_succ] at hd
    obtain ⟨q, hq, hrest⟩ := Option.bind_eq_some_iff.1 hd
    -- `d` lies strictly within `c`, so it is neither `c` nor `s`
    have hdc : d ≠ c := by
      rintro rfl
      rw [hc, Option.bind_some] at hd
      exact h.not_within_child hc ⟨n, hd⟩
    have hds : d ≠ s := by
      rintro rfl
      exact h.not_within_child hc ⟨n + 1, by rw [climb_succ, hq, Option.bind_some]; exact hrest⟩
    rw [h.pathFrom_of_parent hds hq, h.pathFrom_child hc hrest, h.pathFrom_of_parent hdc hq]
    rfl

/-- The path from a container of `d` ends at `d`. -/
theorem IsTree.pathFrom_of_mem_ancestors (h : t.IsTree) {s d : Nat} (hs : s ∈ t.ancestors d) :
    ∃ pre, t.pathFrom s d = pre ++ [d] := by
  have hd : d < t.size := by
    by_contra hlt
    have hnone : (t.get d).parent = none := by rw [get_of_size_le (by omega)]; rfl
    rw [h.ancestors_of_parent_none hnone] at hs
    cases hs
  obtain ⟨hne, -⟩ := (h.mem_ancestors_iff_within hd).1 hs
  cases hp : (t.get d).parent with
  | none =>
    rw [h.ancestors_of_parent_none hp] at hs
    cases hs
  | some p => exact ⟨_, h.pathFrom_of_parent hne hp⟩

theorem mem_pathFrom {s d x : Nat} (hx : x ∈ t.pathFrom s d) :
    (x = d ∨ x ∈ t.ancestors d) ∧ x ≠ s := by
  unfold pathFrom at hx
  rw [List.mem_reverse] at hx
  refine ⟨List.mem_cons.1 (List.takeWhile_subset _ hx), ?_⟩
  simpa using List.all_eq_true.1 List.all_takeWhile x hx

/-! ### What a dotted name names -/

/-- A dotted name names nothing when it has no component: its target takes one. -/
theorem IsTree.names_ne_nil (h : t.IsTree) {cls : SymbolClass} {s d : Nat} {ns : List String}
    (hn : t.Names cls s ns d) : ns ≠ [] := by
  obtain ⟨hs, hfile, -, hns, -⟩ := hn
  obtain ⟨pre, hpre⟩ := h.pathFrom_of_mem_ancestors hs
  rw [← hns, hpre, named_append, named_cons, hfile]
  simp

/-- A child of `s` lies within `s`, and the path from `s` down to it is the child alone. -/
theorem IsTree.path_child (h : t.IsTree) {s c : Nat} (hc : (t.get c).parent = some s) :
    s ∈ t.ancestors c ∧ t.pathFrom s c = [c] :=
  ⟨by rw [h.ancestors_of_parent hc]; exact List.mem_cons_self,
    by rw [h.pathFrom_child hc (n := 0) rfl, pathFrom_self]⟩

/-- A child of `s` is named among the children of `s` by its own name alone, when it is no
file and the class accepts it. -/
theorem IsTree.names_child (h : t.IsTree) {cls : SymbolClass} {s c : Nat} {ns : List String}
    (hc : (t.get c).parent = some s) :
    t.Names cls s ns c ↔ (t.get c).isTransparent = false ∧ cls.accepts (t.get c).kind = true ∧
      ns = [(t.get c).name] := by
  obtain ⟨hanc, hpath⟩ := h.path_child hc
  unfold Names
  rw [hpath]
  cases hfile : (t.get c).isTransparent
  · simp only [named_cons, hfile, named_nil, List.map_cons, List.map_nil, hanc, true_and,
      List.mem_cons, List.not_mem_nil, or_false, forall_eq, ne_eq, not_true_eq_false,
      IsEmpty.forall_iff, and_true, Bool.false_eq_true, if_false]
    exact and_congr_right fun _ => eq_comm
  · simp

/-- A symbol strictly within a child `c` of `s` is not `c`, and both `s` and `c` contain it. -/
theorem IsTree.below_child (h : t.IsTree) {s c d n : Nat} (hc : (t.get c).parent = some s)
    (hd : t.climb (n + 1) d = some c) :
    d ≠ c ∧ s ∈ t.ancestors d ∧ c ∈ t.ancestors d := by
  refine ⟨fun e => ?_, h.mem_ancestors.2 ⟨n + 1, ?_⟩, h.mem_ancestors.2 ⟨n, hd⟩⟩
  · subst e
    rw [climb_succ, hc, Option.bind_some] at hd
    exact h.not_within_child hc ⟨n, hd⟩
  · rw [climb_add, hd, Option.bind_some, climb_one, hc]

/-- A symbol strictly within a child `c` of `s` is named among the children of `s` by what
names it among the children of `c`, after the name of `c` unless `c` is a file; a symbol
that is no file must also be a package or a type to be passed through. -/
theorem IsTree.names_below (h : t.IsTree) {cls : SymbolClass} {s c d n : Nat}
    {ns : List String} (hc : (t.get c).parent = some s) (hd : t.climb (n + 1) d = some c) :
    t.Names cls s ns d ↔
      if (t.get c).isTransparent then t.Names cls c ns d
      else ∃ rest, ns = (t.get c).name :: rest ∧ (t.get c).isDescendable = true ∧
        t.Names cls c rest d := by
  obtain ⟨hdc, hancs, hancc⟩ := h.below_child hc hd
  have hpath : t.pathFrom s d = c :: t.pathFrom c d := h.pathFrom_child hc hd
  unfold Names
  rw [hpath, named_cons]
  split
  · simp [hancs, hancc]
  · rename_i hfile
    simp only [List.map_cons, List.mem_cons, forall_eq_or_imp, hancs, hancc, true_and]
    constructor
    · rintro ⟨hdf, hacc, hns, hdesc, hrest⟩
      exact ⟨_, hns.symm, hdesc (Ne.symm hdc), hdf, hacc, rfl, hrest⟩
    · rintro ⟨rest, rfl, hdesc, hdf, hacc, hns, hrest⟩
      exact ⟨hdf, hacc, by rw [hns], fun _ => hdesc, hrest⟩

/-- What the walk from a child of `c` lists lies strictly within `c`. -/
theorem IsTree.climb_of_mem_walk (h : t.IsTree) {c d : Nat} {f : Nat}
    (hd : d ∈ (t.get c).children.toList.flatMap (t.walkFrom .any f)) :
    ∃ n, t.climb (n + 1) d = some c := by
  obtain ⟨g, hg, hdg⟩ := List.mem_flatMap.1 hd
  obtain ⟨⟨n, hn⟩, -⟩ := h.within_of_mem_walkFrom hdg
  have hgc := (h.mem_children c g).1 (Array.mem_toList_iff.1 hg)
  exact ⟨n, by rw [climb_add, hn, Option.bind_some, climb_one, hgc]⟩

section Below

/-! What a name names strictly within a child `c` of `s`, among the symbols of a list `l`
that lie there. -/

variable {cls : SymbolClass} {s c : Nat} {l : List Nat}

/-- A name without components names nothing. -/
theorem IsTree.filter_names_nil (h : t.IsTree) (s : Nat) (l : List Nat) :
    l.filter (fun d => decide (t.Names cls s [] d)) = [] :=
  List.filter_eq_nil_iff.2 fun _ _ hn => h.names_ne_nil (of_decide_eq_true hn) rfl

/-- Below a file, a name names what it names among the children of the file. -/
theorem IsTree.filter_names_file (h : t.IsTree) (hc : (t.get c).parent = some s)
    (hfile : (t.get c).isTransparent = true) (ns : List String)
    (hl : ∀ d ∈ l, ∃ n, t.climb (n + 1) d = some c) :
    l.filter (fun d => decide (t.Names cls s ns d)) =
      l.filter (fun d => decide (t.Names cls c ns d)) :=
  List.filter_congr fun d hd => by
    obtain ⟨n, hn⟩ := hl d hd
    rw [decide_eq_decide, h.names_below hc hn, if_pos hfile]

/-- Below a symbol that is no file, a name names something only when its first component is
the symbol's name and the symbol is a package or a type; the rest of the name then names it
among the children of the symbol. -/
theorem IsTree.filter_names_named (h : t.IsTree) (hc : (t.get c).parent = some s)
    (hfile : (t.get c).isTransparent = false) (head : String) (rest : List String)
    (hl : ∀ d ∈ l, ∃ n, t.climb (n + 1) d = some c) :
    l.filter (fun d => decide (t.Names cls s (head :: rest) d)) =
      if head = (t.get c).name ∧ (t.get c).isDescendable = true then
        l.filter (fun d => decide (t.Names cls c rest d))
      else [] := by
  have hiff : ∀ d ∈ l, t.Names cls s (head :: rest) d ↔
      (head = (t.get c).name ∧ (t.get c).isDescendable = true) ∧ t.Names cls c rest d := by
    intro d hd
    obtain ⟨n, hn⟩ := hl d hd
    rw [h.names_below hc hn, if_neg (by simp [hfile])]
    constructor
    · rintro ⟨r, hr, hdesc, hr'⟩
      obtain ⟨rfl, rfl⟩ := List.cons.inj hr
      exact ⟨⟨rfl, hdesc⟩, hr'⟩
    · rintro ⟨⟨rfl, hdesc⟩, hr⟩
      exact ⟨rest, rfl, hdesc, hr⟩
  split
  · rename_i hcond
    exact List.filter_congr fun d hd => by rw [decide_eq_decide, hiff d hd, and_iff_right hcond]
  · rename_i hcond
    exact List.filter_eq_nil_iff.2 fun d hd hn =>
      hcond ((hiff d hd).1 (of_decide_eq_true hn)).1

end Below

/-- The search among the children of `s` with fuel `fuel` lists, in the order of the walk
below `s` with the same fuel, the symbols the name names there. -/
theorem IsTree.resolveLocallyWith_eq (h : t.IsTree) (cls : SymbolClass) :
    ∀ (fuel s : Nat) (ns : List String), t.resolveLocallyWith cls fuel s ns =
      ((t.get s).children.toList.flatMap (t.walkFrom .any fuel)).filter
        fun d => decide (t.Names cls s ns d)
  | 0, s, ns => by simp [resolveLocallyWith, walkFrom]
  | fuel + 1, s, ns => by
    rw [resolveLocallyWith, List.filter_flatMap]
    refine List.flatMap_congr fun c hc => ?_
    have hcs : (t.get c).parent = some s := (h.mem_children s c).1 (Array.mem_toList_iff.1 hc)
    have hbelow : ∀ d ∈ (t.get c).children.toList.flatMap (t.walkFrom .any fuel),
        ∃ n, t.climb (n + 1) d = some c := fun d hd => h.climb_of_mem_walk hd
    -- a child contributes itself, then what lies below it
    rw [walkFrom_succ, if_pos (SymbolClass.accepts_any _), List.filter_append,
      List.filter_singleton]
    by_cases hfile : (t.get c).isTransparent
    · -- a file is never named itself, and passes the whole name on
      have hself : ¬ t.Names cls s ns c := fun hn => by
        simp [(h.names_child hcs).1 hn] at hfile
      simp only [hfile, if_true, decide_eq_false hself, cond_false, List.nil_append]
      rw [h.filter_names_file hcs hfile ns hbelow, h.resolveLocallyWith_eq cls fuel c ns]
    · simp only [Bool.not_eq_true] at hfile
      simp only [hfile, Bool.false_eq_true, if_false]
      cases ns with
      | nil =>
        rw [h.filter_names_nil, decide_eq_false fun hn => h.names_ne_nil hn rfl]
        rfl
      | cons head rest =>
        dsimp only
        rw [h.filter_names_named hcs hfile head rest hbelow, h.resolveLocallyWith_eq cls fuel c rest]
        have hself : t.Names cls s (head :: rest) c ↔
            cls.accepts (t.get c).kind = true ∧ head = (t.get c).name ∧ rest = [] := by
          rw [h.names_child hcs, List.cons_eq_cons]
          simp [hfile]
        by_cases hrest : rest = []
        · -- the last component names `c` itself and nothing below it
          subst hrest
          rw [h.filter_names_nil]
          by_cases hn : t.Names cls s [head] c
          · obtain ⟨hacc, rfl, -⟩ := hself.1 hn
            simp [hn, hacc]
          · have hcode : ¬ (head = (t.get c).name ∧ cls.accepts (t.get c).kind = true) :=
              fun hcode => hn (hself.2 ⟨hcode.2, hcode.1, rfl⟩)
            by_cases hhead : head = (t.get c).name
            · subst hhead
              have hacc : cls.accepts (t.get c).kind = false := by simpa using hcode
              simp [hn, hacc]
            · simp [hn, hhead]
        · -- more components name nothing but what lies below `c`
          have hnot : ¬ t.Names cls s (head :: rest) c := fun hn => hrest (hself.1 hn).2.2
          rw [decide_eq_false hnot]
          by_cases hhead : head = (t.get c).name <;>
            by_cases hdesc : (t.get c).isDescendable <;> simp [hhead, hdesc, hrest]

/-- Looking a dotted name up among the children of `s` lists, in the order of the walk below
`s`, the symbols that the name names there. -/
theorem IsTree.resolveLocally_eq (h : t.IsTree) (cls : SymbolClass) (s : Nat) (ns : List String) :
    t.resolveLocally cls s ns = (t.descendants .any s).filter fun d => decide (t.Names cls s ns d) :=
  h.resolveLocallyWith_eq cls t.size s ns

/-- The walk below `s` lists the stored symbols that `s` contains. -/
theorem IsTree.mem_descendants_any (h : t.IsTree) {s d : Nat} :
    d ∈ t.descendants .any s ↔ d < t.size ∧ s ∈ t.ancestors d := by
  rw [h.mem_descendants]
  constructor
  · rintro ⟨hne, hd, hw, -⟩
    exact ⟨hd, (h.mem_ancestors_iff_within hd).2 ⟨hne, hw⟩⟩
  · rintro ⟨hd, hs⟩
    obtain ⟨hne, hw⟩ := (h.mem_ancestors_iff_within hd).1 hs
    exact ⟨hne, hd, hw, rfl⟩

/-- The search lists no symbol twice. -/
theorem IsTree.nodup_resolveLocally (h : t.IsTree) (cls : SymbolClass) (s : Nat)
    (ns : List String) : (t.resolveLocally cls s ns).Nodup := by
  rw [h.resolveLocally_eq]
  exact (h.nodup_descendants .any s).filter _

/-! ### Reading a dotted name back -/

/-- A name that reads back as itself out of a dotted name: not empty, without blanks around
it, and without `.`, `[`, `(` or `<`. -/
def PlainName (n : String) : Prop :=
  n ≠ "" ∧ Text.trim n = n ∧ ∀ c ∈ n.toList, c ≠ '.' ∧ c ≠ '[' ∧ c ≠ '(' ∧ c ≠ '<'

/-- Splitting at a character is the library's splitting of a list at an element. -/
theorem splitAt_eq_splitOn (sep : Char) : ∀ l : List Char, splitAt sep l = l.splitOn sep
  | [] => rfl
  | c :: cs => by
    rw [splitAt, List.splitOn_cons_eq_if_modifyHead, splitAt_eq_splitOn sep cs]
    by_cases hc : c = sep
    · simp [hc]
    · obtain ⟨p, ps, hps⟩ := List.exists_cons_of_ne_nil (List.splitOn_ne_nil sep cs)
      simp [hc, hps]

/-- A character of parts joined by a separator is the separator or a character of a part. -/
theorem mem_intercalate_sep {sep c : Char} :
    ∀ {parts : List (List Char)}, c ∈ [sep].intercalate parts → c = sep ∨ ∃ p ∈ parts, c ∈ p
  | [], hc => by simp [List.intercalate_nil] at hc
  | [p], hc => Or.inr ⟨p, List.mem_singleton_self p, by simpa using hc⟩
  | p :: q :: rest, hc => by
    rw [List.intercalate_cons_cons, List.mem_append, List.mem_append] at hc
    rcases hc with (hc | hc) | hc
    · exact Or.inr ⟨p, List.mem_cons_self, hc⟩
    · exact Or.inl (List.mem_singleton.1 hc)
    · rcases mem_intercalate_sep hc with hc | ⟨r, hr, hcr⟩
      · exact Or.inl hc
      · exact Or.inr ⟨r, List.mem_cons_of_mem p hr, hcr⟩

/-- The dotted name of plain names splits back into them. -/
theorem dottedParts_intercalate {ns : List String} (h : ∀ n ∈ ns, PlainName n) :
    dottedParts (".".intercalate ns) = ns := by
  by_cases hne : ns = []
  · subst hne
    rfl
  have hdot : ".".toList = ['.'] := rfl
  -- the dotted name holds no bracket, so all of it is read
  have hhead : (".".intercalate ns).toList.takeWhile
      (fun c => c != '[' && c != '(' && c != '<') = (".".intercalate ns).toList := by
    rw [List.takeWhile_eq_self_iff, String.toList_intercalate, hdot]
    intro c hc
    rcases mem_intercalate_sep hc with rfl | ⟨p, hp, hcp⟩
    · decide
    · obtain ⟨n, hn, rfl⟩ := List.mem_map.1 hp
      obtain ⟨-, h1, h2, h3⟩ := (h n hn).2.2 c hcp
      simp [h1, h2, h3]
  have hparts : ∀ p ∈ ns.map String.toList, '.' ∉ p := by
    intro p hp hdotp
    obtain ⟨n, hn, rfl⟩ := List.mem_map.1 hp
    exact ((h n hn).2.2 '.' hdotp).1 rfl
  dsimp only [dottedParts]
  rw [hhead, String.toList_intercalate, hdot, splitAt_eq_splitOn,
    List.splitOn_intercalate '.' hparts (by simpa using hne), List.map_map]
  -- each plain name reads back as itself, and none is empty
  have hself : ∀ n ∈ ns, ((fun p => Text.trim (String.ofList p)) ∘ String.toList) n = n := by
    intro n hn
    simp [(h n hn).2.1]
  rw [List.map_congr_left hself, List.map_id']
  exact List.filter_eq_self.2 fun n hn => by simpa using (h n hn).1

/-- In a tree the chain from a stored symbol up to the root is its path from the root, read
upwards, then the root. -/
theorem IsTree.chain_eq (h : t.IsTree) {d : Nat} (hd : d < t.size) :
    d :: t.ancestors d = (t.pathFrom 0 d).reverse ++ [0] := by
  obtain ⟨n, hn⟩ := h.rooted d hd
  induction n generalizing d with
  | zero =>
    obtain rfl : d = 0 := by simpa using hn
    rw [h.ancestors_of_parent_none h.root_parent, pathFrom_self]
    rfl
  | succ n ih =>
    rw [climb_succ] at hn
    obtain ⟨p, hp, hrest⟩ := Option.bind_eq_some_iff.1 hn
    have hd0 : d ≠ 0 := fun e => by rw [e, h.root_parent] at hp; cases hp
    rw [h.ancestors_of_parent hp, ih (h.parent_lt hp) hrest, h.pathFrom_of_parent hd0 hp]
    simp

/-- The dotted name of a stored symbol whose path from the root holds no project joins the
names of the symbols on that path that are no files. -/
theorem IsTree.qualifiedName_eq (h : t.IsTree) {d : Nat} (hd : d < t.size)
    (hproj : ∀ x ∈ t.pathFrom 0 d, ∀ l, (t.get x).kind ≠ .project l) :
    t.qualifiedName d = ".".intercalate ((t.named (t.pathFrom 0 d)).map fun x => (t.get x).name) := by
  unfold qualifiedName
  dsimp only
  obtain ⟨l, hl⟩ := h.root_project
  -- the root is the project and drops out
  rw [h.chain_eq hd, List.filter_append, List.filter_reverse, List.filter_singleton, hl]
  simp only [cond_false, List.append_nil, List.reverse_reverse]
  -- on the path, the files are the symbols that drop out
  congr 2
  refine List.filter_congr fun x hx => ?_
  have := hproj x hx
  cases hk : (t.get x).kind <;> simp_all [Symbol.isTransparent]

/-- A symbol that is neither a file nor a project, whose containers below the root are
packages and types where they are no files, and whose path holds plain names only, is found
by looking up its own dotted name. -/
theorem IsTree.mem_lookup_qualifiedName (h : t.IsTree) {d : Nat} (hd : d < t.size)
    (hfile : (t.get d).isTransparent = false) (hproj : ∀ l, (t.get d).kind ≠ .project l)
    (hup : ∀ x ∈ t.ancestors d, x ≠ 0 → (t.get x).isTransparent = false →
      (t.get x).isDescendable = true)
    (hplain : ∀ x ∈ t.named (t.pathFrom 0 d), PlainName (t.get x).name) :
    d ∈ t.lookup (dottedParts (t.qualifiedName d)) := by
  obtain ⟨l, hl⟩ := h.root_project
  have hd0 : d ≠ 0 := fun e => hproj l (e ▸ hl)
  have hanc : 0 ∈ t.ancestors d := (h.mem_ancestors_iff_within hd).2 ⟨hd0, h.rooted d hd⟩
  -- no symbol of the path is a project: `d` is none, and the others are files, packages or types
  have hpath : ∀ x ∈ t.pathFrom 0 d, ∀ l, (t.get x).kind ≠ .project l := by
    intro x hx l' hk
    obtain ⟨rfl | hxa, hx0⟩ := mem_pathFrom hx
    · exact hproj l' hk
    · have hdesc := hup x hxa hx0 (by simp [Symbol.isTransparent, hk])
      simp [Symbol.isDescendable, hk] at hdesc
  rw [h.qualifiedName_eq hd hpath, dottedParts_intercalate fun n hn => by
    obtain ⟨x, hx, rfl⟩ := List.mem_map.1 hn
    exact hplain x hx]
  unfold lookup
  rw [h.resolveLocally_eq, List.mem_filter, h.mem_descendants_any]
  refine ⟨⟨hd, hanc⟩, decide_eq_true ⟨hanc, hfile, rfl, rfl, fun x hx hxd => ?_⟩⟩
  obtain ⟨hxp, hxf⟩ := List.mem_filter.1 hx
  obtain ⟨rfl | hxa, hx0⟩ := mem_pathFrom hxp
  · exact absurd rfl hxd
  · exact hup x hxa hx0 (by simpa using hxf)

/-- The root's dotted name is empty, and an empty name looks nothing up. -/
theorem IsTree.root_not_mem_lookup_qualifiedName (h : t.IsTree) :
    0 ∉ t.lookup (dottedParts (t.qualifiedName 0)) := by
  obtain ⟨l, hl⟩ := h.root_project
  have hname : t.qualifiedName 0 = "" := by
    unfold qualifiedName
    rw [h.ancestors_of_parent_none h.root_parent, List.filter_singleton, hl]
    rfl
  have hparts : dottedParts "" = [] := rfl
  rw [hname, hparts]
  unfold lookup
  rw [h.resolveLocally_eq, h.filter_names_nil]
  exact List.not_mem_nil

/-- In a tree, the search for a dotted name among the children of a scope lists, in the
pre-order of the walk below the scope and once each, the symbols that the name names there;
the walk below a scope holds exactly the stored symbols within it; a lookup is the same
search from the root over the whole walk; and a symbol that is neither a file nor a project,
that lies below packages and types only (files apart) and has plain names on its path, is
found by looking up its own dotted name. -/
theorem IsTree.resolution_by_paths (h : t.IsTree) :
    (∀ cls s ns, t.resolveLocally cls s ns =
      (t.descendants .any s).filter fun d => decide (t.Names cls s ns d)) ∧
    (∀ s, (∀ d, d ∈ t.descendants .any s ↔ d < t.size ∧ s ∈ t.ancestors d) ∧
      ∀ cls ns, (t.resolveLocally cls s ns).Nodup) ∧
    (∀ ns, t.lookup ns = (t.walk .any).filter fun d => decide (t.Names .any 0 ns d)) ∧
    ∀ d < t.size, (t.get d).isTransparent = false → (∀ l, (t.get d).kind ≠ .project l) →
      (∀ x ∈ t.ancestors d, x ≠ 0 → (t.get x).isTransparent = false →
        (t.get x).isDescendable = true) →
      (∀ x ∈ t.named (t.pathFrom 0 d), PlainName (t.get x).name) →
      d ∈ t.lookup (dottedParts (t.qualifiedName d)) :=
  ⟨h.resolveLocally_eq,
    fun s => ⟨fun _ => h.mem_descendants_any, fun cls ns => h.nodup_resolveLocally cls s ns⟩,
    fun ns => by rw [h.walk_eq_descendants]; exact h.resolveLocally_eq .any 0 ns,
    fun _ hd hfile hproj hup hplain => h.mem_lookup_qualifiedName hd hfile hproj hup hplain⟩

end SymbolTree

open SymbolTree in
/-- The tree of a Java project holding one class in package `com.shop` is a tree, and
its lookups are the searches over its walk. -/
theorem scanned_resolution_by_paths :
    ∃ t : SymbolTree, t = ((Corpus.addFile { name := "project", languages := ["java"] }
        "com/shop/A.java" "package com.shop;\nclass A {}\n").1.codebases[0]?.getD
          (⟨.java, SymbolTree.new "project" "java", 0⟩ : Codebase)).tree ∧ t.IsTree ∧
      ∀ ns, t.lookup ns = (t.walk .any).filter fun d => decide (t.Names .any 0 ns d) := by
  have h : ((Corpus.addFile { name := "project", languages := ["java"] }
      "com/shop/A.java" "package com.shop;\nclass A {}\n").1.codebases[0]?.getD
        (⟨.java, SymbolTree.new "project" "java", 0⟩ : Codebase)).tree.IsTree :=
    (Corpus.getD_shaped (Corpus.Reachable.addFile _ _ (.new "project" ["java"])).shaped 0
      (⟨.java, SymbolTree.new "project" "java", 0⟩ : Codebase) (shaped_new "project" "java")).isTree
  exact ⟨_, rfl, h, (IsTree.resolution_by_paths h).2.2.1⟩

open SymbolTree in
/-- The root of a scanned Java project is no file, and no container above it or name on its
path is in the way, yet its dotted name is empty and looking it up finds nothing. -/
theorem scanned_root_escapes_lookup :
    ∃ t : SymbolTree, t = ((Corpus.addFile { name := "project", languages := ["java"] }
        "com/shop/A.java" "package com.shop;\nclass A {}\n").1.codebases[0]?.getD
          (⟨.java, SymbolTree.new "project" "java", 0⟩ : Codebase)).tree ∧ t.IsTree ∧
      (t.get 0).isTransparent = false ∧ t.ancestors 0 = [] ∧ t.named (t.pathFrom 0 0) = [] ∧
      0 ∉ t.lookup (dottedParts (t.qualifiedName 0)) := by
  have h : ((Corpus.addFile { name := "project", languages := ["java"] }
      "com/shop/A.java" "package com.shop;\nclass A {}\n").1.codebases[0]?.getD
        (⟨.java, SymbolTree.new "project" "java", 0⟩ : Codebase)).tree.IsTree :=
    (Corpus.getD_shaped (Corpus.Reachable.addFile _ _ (.new "project" ["java"])).shaped 0
      (⟨.java, SymbolTree.new "project" "java", 0⟩ : Codebase) (shaped_new "project" "java")).isTree
  obtain ⟨l, hl⟩ := h.root_project
  refine ⟨_, rfl, h, by simp [Symbol.isTransparent, hl], h.ancestors_of_parent_none h.root_parent,
    by simp, h.root_not_mem_lookup_qualifiedName⟩

end Lineage
