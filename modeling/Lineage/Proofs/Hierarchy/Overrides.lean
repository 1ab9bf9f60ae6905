import Mathlib.Data.List.Chain
import Lineage.Proofs.Hierarchy.Ready
import Lineage.Proofs.Corpus
/-!
Which method overrides which.

The search for overrides walks down child edges from each root, the roots in ascending
order and the children of a node in list order, and cuts off a node already on its path.
Along a path it passes down every method that takes part in overriding (neither private
nor static) and is not final, a later one of a signature replacing the earlier; a method of
the node reached that takes part in overriding overrides the method passed down under its
signature. The search thus visits the simple paths down from the roots, in the order
`searchPaths` lists them (`mem_searchPaths`), and on a path it finds `near`: the last method
of the signature passed down along it (`lookup_passed`). As a whole it is the fold of
`setOverride` over what each visited path records (`roots_findOverrides`).

* `hierarchy_overridesAlongPaths`: for any tree, the overrides its built hierarchy records
  are those the simple paths from the roots give (`Hierarchy.OverridesAlongPaths`): `m` is
  among the methods overriding `o` exactly when `m` takes part in overriding and some such
  path to the owner of `m` passes `o` down; `m` overrides what the last such path passes
  down; and so a method overrides only a method of its signature, owned by a proper
  ancestor of its owner, which lists it among the methods overriding it.
-/
namespace Lineage

open SymbolTree

namespace Hierarchy

variable (tree : SymbolTree) (h : Hierarchy)

/-- Whether a method takes part in overriding: it is neither private nor static. -/
def overridable (m : Nat) : Bool :=
  !((tree.get (h.method m).symbol).has .privateAccess ||
    (tree.get (h.method m).symbol).has .static)

/-- Whether a method is passed down to subtypes: it takes part in overriding and is not
final. -/
def inheritable (m : Nat) : Bool :=
  h.overridable tree m && !(tree.get (h.method m).symbol).has .final

/-- The methods of a list of nodes, node by node, each node's in its order. -/
def methodsOf (nodes : List Nat) : List Nat := nodes.flatMap fun u => (h.node u).methods.toList

/-- The method passed down under a signature along a path, listed from its last node up to
its root: among the methods of the nodes above the last one, taken from the root down, the
last that is passed down and has the signature. -/
def near (P : List Nat) (s : Signature) : Option Nat :=
  ((h.methodsOf P.tail.reverse).filter fun m =>
    h.inheritable tree m && (h.method m).signature == s).getLast?

/-- A simple path down child edges from a root, listed from its last node up to the root. -/
structure RootPath (P : List Nat) : Prop where
  chain : P.IsChain fun a b => a ∈ (h.node b).children
  nodup : P.Nodup
  root : ∃ r, P.getLast? = some r ∧ r < h.types.size ∧ (h.node r).parents = #[] ∧
    (h.node r).children ≠ #[]

/-- The paths the search visits from `ty`, below the nodes of `path` (listed from the last
up), depth first; the fuel bounds the depth. -/
def pathsFrom : Nat → List Nat → Nat → List (List Nat)
  | 0, _, _ => []
  | fuel + 1, path, ty =>
    if ty ∈ path then []
    else (ty :: path) :: (h.node ty).children.toList.flatMap (pathsFrom fuel (ty :: path))

/-- Every path the search visits, in its order: from the roots in ascending order, children in
list order. -/
def searchPaths : List (List Nat) := h.roots.flatMap (h.pathsFrom (h.types.size + 1) [])

/-- What visiting a path records for one method of its last node: if the method takes part
in overriding, that it overrides the method passed down under its signature, if any. -/
def overrideOn (P : List Nat) (m : Nat) : Option (Nat × Nat) :=
  if h.overridable tree m then (h.near tree P (h.method m).signature).map (m, ·) else none

/-- What visiting a path records: for each method of its last node, in order, what it
overrides. -/
def pathOverrides : List Nat → List (Nat × Nat)
  | [] => []
  | u :: above => (h.node u).methods.toList.filterMap (h.overrideOn tree (u :: above))

/-- Passing a method down: a method passed down replaces the one of its signature. -/
def passOn (passed : List (Signature × Nat)) (m : Nat) : List (Signature × Nat) :=
  if h.inheritable tree m then
    ((h.method m).signature, m) :: passed.filter (·.1 != (h.method m).signature)
  else passed

/-- What the search passes down below a path, listed from its last node up to its root. -/
def passedDown (path : List Nat) : List (Signature × Nat) :=
  (h.methodsOf path.reverse).foldl (h.passOn tree) []

/-- Records each pair `(m, o)` of a list in turn: `m` overrides `o`. -/
def setOverrides (E : List (Nat × Nat)) : Hierarchy :=
  E.foldl (fun h e => h.setOverride e.1 e.2) h

/-! ### What is passed down -/

theorem methodsOf_append (l₁ l₂ : List Nat) :
    h.methodsOf (l₁ ++ l₂) = h.methodsOf l₁ ++ h.methodsOf l₂ :=
  List.flatMap_append

@[simp] theorem passedDown_nil : h.passedDown tree [] = [] := rfl

/-- Below one more node, its methods are passed on after what was passed down to it. -/
theorem passedDown_cons (u : Nat) (path : List Nat) :
    h.passedDown tree (u :: path) =
      (h.node u).methods.toList.foldl (h.passOn tree) (h.passedDown tree path) := by
  unfold passedDown
  rw [List.reverse_cons, methodsOf_append, List.foldl_append]
  simp [methodsOf]

theorem passOn_of_overridable {m : Nat} (hm : h.overridable tree m = true)
    (passed : List (Signature × Nat)) :
    h.passOn tree passed m =
      if (tree.get (h.method m).symbol).has .final then passed
      else ((h.method m).signature, m) :: passed.filter (·.1 != (h.method m).signature) := by
  unfold passOn inheritable
  rw [hm, Bool.true_and]
  cases (tree.get (h.method m).symbol).has .final <;> rfl

theorem passOn_of_not_overridable {m : Nat} (hm : h.overridable tree m = false)
    (passed : List (Signature × Nat)) : h.passOn tree passed m = passed := by
  unfold passOn inheritable
  rw [hm, Bool.false_and]
  rfl

theorem lookup_filter_ne {l : List (Signature × Nat)} {s k : Signature} (hne : s ≠ k) :
    (l.filter (·.1 != k)).lookup s = l.lookup s := by
  induction l with
  | nil => rfl
  | cons e l ih =>
    obtain ⟨s', x⟩ := e
    by_cases hk : s' = k
    · subst hk
      rw [List.filter_cons, if_neg (by simp), ih, List.lookup_cons, beq_eq_false_iff_ne.2 hne]
    · rw [List.filter_cons, if_pos (by simpa using hk), List.lookup_cons, List.lookup_cons, ih]

/-- Passing one method down, seen under one signature. -/
theorem lookup_passOn (passed : List (Signature × Nat)) (m : Nat) (s : Signature) :
    (h.passOn tree passed m).lookup s =
      (if h.inheritable tree m && (h.method m).signature == s then some m else none).or
        (passed.lookup s) := by
  unfold passOn
  by_cases hinh : h.inheritable tree m = true
  · by_cases hs : (h.method m).signature = s
    · subst hs
      simp [hinh]
    · rw [if_pos hinh, List.lookup_cons, beq_eq_false_iff_ne.2 (Ne.symm hs),
        lookup_filter_ne (Ne.symm hs)]
      simp [hinh, hs]
  · simp [hinh]

/-- What is passed down under a signature is the last method of that signature passed
down, or else what was passed down before. -/
theorem lookup_foldl_passOn (s : Signature) :
    ∀ (ms : List Nat) (passed : List (Signature × Nat)),
      (ms.foldl (h.passOn tree) passed).lookup s =
        ((ms.filter fun m => h.inheritable tree m && (h.method m).signature == s).getLast?).or
          (passed.lookup s)
  | [], passed => by simp
  | m :: ms, passed => by
    rw [List.foldl_cons, lookup_foldl_passOn s ms, lookup_passOn, List.filter_cons]
    -- both conditionals test whether `m` is passed down under `s`
    split
    · rw [List.getLast?_cons]
      cases (List.filter _ ms).getLast? <;> rfl
    · rw [Option.none_or]

/-- Along a path, what is passed down to its last node under a signature is `near`. -/
theorem lookup_passed (u : Nat) (above : List Nat) (s : Signature) :
    (h.passedDown tree above).lookup s = h.near tree (u :: above) s := by
  rw [passedDown, lookup_foldl_passOn, List.lookup_nil, Option.or_none]
  rfl

/-! ### Recording overrides -/

@[simp] theorem setOverrides_nil : h.setOverrides [] = h := rfl

@[simp] theorem setOverrides_cons (e : Nat × Nat) (E : List (Nat × Nat)) :
    h.setOverrides (e :: E) = (h.setOverride e.1 e.2).setOverrides E := rfl

theorem setOverrides_append (E F : List (Nat × Nat)) :
    h.setOverrides (E ++ F) = (h.setOverrides E).setOverrides F :=
  List.foldl_append

theorem sameCore_setOverrides (E : List (Nat × Nat)) : h.SameCore (h.setOverrides E) := by
  induction E generalizing h with
  | nil => exact .refl h
  | cons e E ih => exact (sameCore_setOverride h e.1 e.2).trans (ih _)

/-! ### The search as a fold of `setOverride` -/

/-- The search from `ty` below `path`, with what is passed down along `path`, records what
each path it visits records, in order. -/
theorem findOverrides_eq (h₀ : Hierarchy) :
    ∀ (fuel : Nat) (h : Hierarchy) (ty : Nat) (path : List Nat), h₀.SameCore h →
      h.findOverrides tree fuel ty (h₀.passedDown tree path) path =
        h.setOverrides ((h₀.pathsFrom fuel path ty).flatMap (h₀.pathOverrides tree))
  | 0, _, _, _, _ => rfl
  | fuel + 1, h, ty, path, hc => by
    unfold findOverrides pathsFrom
    by_cases hty : ty ∈ path
    · rw [if_pos (List.contains_iff_mem.2 hty), if_pos hty]
      rfl
    rw [if_neg (by simpa using hty), if_neg hty]
    dsimp only
    generalize hq : Array.foldl _ (h, _) (h.node ty).methods = q
    -- the node's own methods: each records what it overrides and is passed on
    have hnode : q = (h.setOverrides (h₀.pathOverrides tree (ty :: path)),
        h₀.passedDown tree (ty :: path)) := by
      rw [← hq, ← Array.foldl_toList, hc.node, pathOverrides, passedDown_cons]
      refine foldl_induction (P := fun pre (q : Hierarchy × List (Signature × Nat)) =>
        q = (h.setOverrides (pre.filterMap (h₀.overrideOn tree (ty :: path))),
          pre.foldl (h₀.passOn tree) (h₀.passedDown tree path))) _ rfl ?_
      rintro pre m - - - rfl
      have hB :
          h₀.SameCore (h.setOverrides (pre.filterMap (h₀.overrideOn tree (ty :: path)))) :=
        hc.trans (sameCore_setOverrides _ _)
      dsimp only
      rw [hB.symbol, hB.signature, List.filterMap_append, setOverrides_append, List.foldl_concat]
      by_cases hov : h₀.overridable tree m = true
      · rw [if_neg (by simpa [overridable] using hov), passOn_of_overridable tree h₀ hov]
        have hon : h₀.overrideOn tree (ty :: path) m =
            ((h₀.passedDown tree path).lookup (h₀.method m).signature).map (m, ·) := by
          rw [overrideOn, if_pos hov, lookup_passed]
        cases hn : (h₀.passedDown tree path).lookup (h₀.method m).signature with
        | none =>
          rw [hn, Option.map_none] at hon
          rw [List.filterMap_cons_none hon]
          rfl
        | some o =>
          rw [hn, Option.map_some] at hon
          rw [List.filterMap_cons_some hon]
          rfl
      · have hon : h₀.overrideOn tree (ty :: path) m = none := by
          rw [overrideOn, if_neg hov]
        rw [Bool.not_eq_true] at hov
        have hps : ((tree.get (h₀.method m).symbol).has .privateAccess ||
            (tree.get (h₀.method m).symbol).has .static) = true := by
          rw [overridable, Bool.not_eq_false'] at hov
          exact hov
        rw [if_pos hps, passOn_of_not_overridable tree h₀ hov, List.filterMap_cons_none hon]
        rfl
    subst hnode
    dsimp only
    rw [List.flatMap_cons, setOverrides_append, hc.node, ← Array.foldl_toList]
    -- then each child in turn, with what the node passes on
    suffices ∀ (cs : List Nat) (B : Hierarchy), h₀.SameCore B →
        cs.foldl (fun B c => B.findOverrides tree fuel c (h₀.passedDown tree (ty :: path))
          (ty :: path)) B =
          B.setOverrides ((cs.flatMap (h₀.pathsFrom fuel (ty :: path))).flatMap
            (h₀.pathOverrides tree)) from
      this _ _ (hc.trans (sameCore_setOverrides _ _))
    intro cs
    induction cs with
    | nil => exact fun B _ => rfl
    | cons c cs ih =>
      intro B hB
      rw [List.foldl_cons, findOverrides_eq h₀ fuel B c (ty :: path) hB, List.flatMap_cons,
        List.flatMap_append, setOverrides_append]
      exact ih _ (hB.trans (sameCore_setOverrides _ _))

/-- The search from every root records what every path of `searchPaths` records, in order. -/
theorem roots_findOverrides (h : Hierarchy) :
    h.roots.foldl (fun h r => h.findOverrides tree (h.types.size + 1) r [] []) h =
      h.setOverrides (h.searchPaths.flatMap (h.pathOverrides tree)) := by
  unfold searchPaths
  suffices ∀ (rs : List Nat) (B : Hierarchy), h.SameCore B →
      rs.foldl (fun h r => h.findOverrides tree (h.types.size + 1) r [] []) B =
        B.setOverrides ((rs.flatMap (h.pathsFrom (h.types.size + 1) [])).flatMap
          (h.pathOverrides tree)) from
    this h.roots h (.refl h)
  intro rs
  induction rs with
  | nil => exact fun B _ => rfl
  | cons r rs ih =>
    intro B hB
    have hr := findOverrides_eq tree h (h.types.size + 1) B r [] hB
    rw [passedDown_nil] at hr
    rw [List.foldl_cons, hB.types, hr, List.flatMap_cons, List.flatMap_append,
      setOverrides_append]
    exact ih _ (hB.trans (sameCore_setOverrides _ _))

/-! ### The paths the search visits -/

theorem mem_pathsFrom_succ {fuel : Nat} {path : List Nat} {ty : Nat} {Q : List Nat} :
    Q ∈ h.pathsFrom (fuel + 1) path ty ↔ ty ∉ path ∧
      (Q = ty :: path ∨
        ∃ c ∈ (h.node ty).children, Q ∈ h.pathsFrom fuel (ty :: path) c) := by
  rw [pathsFrom]
  by_cases hty : ty ∈ path
  · simp [hty]
  · simp [hty, List.mem_flatMap]

/-- Below a simple path, the search from `ty` visits exactly the extensions of the path down
child edges from `ty` that stay simple, with fewer new nodes below `ty` than the fuel. -/
theorem mem_pathsFrom : ∀ {fuel : Nat} {path : List Nat} {ty : Nat} {Q : List Nat}, path.Nodup →
    (Q ∈ h.pathsFrom fuel path ty ↔ ∃ ext, Q = ext ++ ty :: path ∧
      (ext ++ [ty]).IsChain (fun a b => a ∈ (h.node b).children) ∧ Q.Nodup ∧
        ext.length < fuel)
  | 0, _, _, _, _ => by simp [pathsFrom]
  | fuel + 1, path, ty, Q, hp => by
    rw [mem_pathsFrom_succ]
    constructor
    · rintro ⟨hty, rfl | ⟨c, hc, hQ⟩⟩
      · exact ⟨[], rfl, List.isChain_singleton ty, List.nodup_cons.2 ⟨hty, hp⟩,
          Nat.zero_lt_succ _⟩
      · -- a path through the child `c`
        obtain ⟨ext, rfl, hch, hnd, hlen⟩ :=
          (mem_pathsFrom (List.nodup_cons.2 ⟨hty, hp⟩)).1 hQ
        refine ⟨ext ++ [c], by simp, ?_, hnd, by simp; omega⟩
        rw [List.isChain_append]
        exact ⟨hch, List.isChain_singleton ty, by simp [hc]⟩
    · rintro ⟨ext, rfl, hch, hnd, hlen⟩
      have htyp : (ty :: path).Nodup := (List.nodup_append.1 hnd).2.1
      refine ⟨(List.nodup_cons.1 htyp).1, ?_⟩
      -- the path is the node's own, or goes on through its child next to it
      rcases List.eq_nil_or_concat' ext with rfl | ⟨L, c, rfl⟩
      · exact .inl rfl
      · rw [List.isChain_append] at hch
        refine .inr ⟨c, by simpa using hch.2.2,
          (mem_pathsFrom htyp).2 ⟨L, by simp, hch.1, ?_, ?_⟩⟩
        · simpa using hnd
        · simp only [List.length_append, List.length_singleton] at hlen
          omega

/-- Only a stored node has children. -/
theorem lt_of_mem_children {a b : Nat} (hab : a ∈ (h.node b).children) : b < h.types.size := by
  by_contra hb
  rw [node_of_size_le (Nat.le_of_not_lt hb)] at hab
  exact Array.not_mem_empty a hab

/-- Along a path down child edges every node but the last has a child, so it is stored. -/
theorem lt_of_isChain : ∀ {a : Nat} {rest : List Nat},
    (a :: rest).IsChain (fun a b => a ∈ (h.node b).children) → ∀ b ∈ rest, b < h.types.size
  | _, [], _ => by simp
  | _, b :: rest, hch => by
    rw [List.isChain_cons_cons] at hch
    intro x hx
    rcases List.mem_cons.1 hx with rfl | hx
    · exact h.lt_of_mem_children hch.1
    · exact lt_of_isChain hch.2 x hx

/-- A simple path down child edges has at most one node more than the hierarchy stores. -/
theorem RootPath.length_le {P : List Nat} (hP : h.RootPath P) : P.length ≤ h.types.size + 1 := by
  cases P with
  | nil => simp
  | cons a rest =>
    have hsub : rest ⊆ List.range h.types.size := fun b hb =>
      List.mem_range.2 (h.lt_of_isChain hP.chain b hb)
    have hlen := (List.subperm_of_subset (List.nodup_cons.1 hP.nodup).2 hsub).length_le
    rw [List.length_range] at hlen
    rw [List.length_cons]
    omega

theorem mem_roots {r : Nat} :
    r ∈ h.roots ↔
      r < h.types.size ∧ (h.node r).parents = #[] ∧ (h.node r).children ≠ #[] := by
  simp [roots]

/-- The search visits exactly the simple paths down child edges from the roots. -/
theorem mem_searchPaths {P : List Nat} : P ∈ h.searchPaths ↔ h.RootPath P := by
  unfold searchPaths
  rw [List.mem_flatMap]
  constructor
  · rintro ⟨r, hr, hP⟩
    obtain ⟨ext, rfl, hch, hnd, -⟩ := (h.mem_pathsFrom List.nodup_nil).1 hP
    exact ⟨hch, hnd, r, List.getLast?_concat, h.mem_roots.1 hr⟩
  · intro hP
    obtain ⟨r, hlast, hroot⟩ := hP.root
    obtain ⟨ext, rfl⟩ := List.getLast?_eq_some_iff.1 hlast
    have hlen := hP.length_le
    rw [List.length_append, List.length_singleton] at hlen
    exact ⟨r, h.mem_roots.2 hroot,
      (h.mem_pathsFrom List.nodup_nil).2 ⟨ext, rfl, hP.chain, hP.nodup, by omega⟩⟩

/-! ### What recording overrides does to a method -/

theorem overrides_setOverride (m o i : Nat) :
    ((h.setOverride m o).method i).overrides =
      if m = i ∧ i < h.methods.size then some o else (h.method i).overrides := by
  unfold setOverride method
  dsimp only
  rw [getD_modify, Array.size_modify, getD_modify]
  split_ifs <;> rfl

theorem mem_overriddenBy_setOverride (m o i x : Nat) :
    x ∈ ((h.setOverride m o).method i).overriddenBy ↔
      x ∈ (h.method i).overriddenBy ∨ (o = i ∧ i < h.methods.size ∧ x = m) := by
  unfold setOverride method
  dsimp only
  rw [getD_modify, Array.size_modify, getD_modify]
  -- the entry of `o` takes `m` in, sorted, unless it holds it already; no other entry's
  -- overriding methods change
  split_ifs with hoi hmi hc hc <;> simp_all [List.mem_mergeSort]

/-- After recording a list of overrides, `x` overrides `i` when it did before or when the
list records it. -/
theorem mem_overriddenBy_setOverrides (E : List (Nat × Nat)) (i x : Nat) :
    x ∈ ((h.setOverrides E).method i).overriddenBy ↔
      x ∈ (h.method i).overriddenBy ∨ (i < h.methods.size ∧ (x, i) ∈ E) := by
  induction E generalizing h with
  | nil => simp
  | cons e E ih =>
    obtain ⟨m, o⟩ := e
    rw [setOverrides_cons, ih, mem_overriddenBy_setOverride, (sameCore_setOverride h m o).size]
    constructor
    · rintro ((hx | ⟨rfl, hi, rfl⟩) | ⟨hi, hE⟩)
      · exact .inl hx
      · exact .inr ⟨hi, List.mem_cons_self⟩
      · exact .inr ⟨hi, List.mem_cons_of_mem _ hE⟩
    · rintro (hx | ⟨hi, hE⟩)
      · exact .inl (.inl hx)
      · rcases List.mem_cons.1 hE with hE | hE
        · obtain ⟨rfl, rfl⟩ := Prod.mk.inj hE
          exact .inl (.inr ⟨rfl, hi, rfl⟩)
        · exact .inr ⟨hi, hE⟩

/-- After recording a list of overrides, a stored method overrides what the list records for
it last, or else what it overrode before. -/
theorem overrides_setOverrides (E : List (Nat × Nat)) {i : Nat} (hi : i < h.methods.size) :
    ((h.setOverrides E).method i).overrides =
      ((E.filterMap fun e => if e.1 = i then some e.2 else none).getLast?).or
        (h.method i).overrides := by
  induction E generalizing h with
  | nil => simp
  | cons e E ih =>
    obtain ⟨m, o⟩ := e
    rw [setOverrides_cons, ih _ (by rwa [(sameCore_setOverride h m o).size]),
      overrides_setOverride]
    by_cases hmi : m = i
    · subst hmi
      rw [if_pos ⟨rfl, hi⟩, List.filterMap_cons_some (b := o) (by simp), List.getLast?_cons]
      cases (List.filterMap _ E).getLast? <;> rfl
    · rw [if_neg (fun h => hmi h.1), List.filterMap_cons_none (by simp [hmi])]

/-! ### Hierarchies that differ only in their overrides -/

section SameCore

variable {h h' : Hierarchy}

theorem SameCore.overridable (hc : h.SameCore h') : h'.overridable tree = h.overridable tree := by
  funext m
  unfold Hierarchy.overridable
  rw [hc.symbol]

theorem SameCore.inheritable (hc : h.SameCore h') : h'.inheritable tree = h.inheritable tree := by
  funext m
  unfold Hierarchy.inheritable
  rw [hc.overridable, hc.symbol]

theorem SameCore.near (hc : h.SameCore h') : h'.near tree = h.near tree := by
  funext P s
  unfold Hierarchy.near Hierarchy.methodsOf
  rw [hc.node, hc.inheritable]
  simp only [hc.signature]

theorem SameCore.pathsFrom (hc : h.SameCore h') : h'.pathsFrom = h.pathsFrom := by
  funext fuel
  induction fuel with
  | zero => rfl
  | succ fuel ih =>
    funext path ty
    simp only [Hierarchy.pathsFrom, hc.node, ih]

theorem SameCore.searchPaths (hc : h.SameCore h') : h'.searchPaths = h.searchPaths := by
  unfold Hierarchy.searchPaths Hierarchy.roots
  rw [hc.pathsFrom, hc.node, hc.types]

theorem SameCore.rootPath_iff (hc : h.SameCore h') {P : List Nat} :
    h'.RootPath P ↔ h.RootPath P := by
  rw [← mem_searchPaths, ← mem_searchPaths, hc.searchPaths]

end SameCore

/-! ### What a path records -/

theorem overrideOn_eq_some {P : List Nat} {k m o : Nat} :
    h.overrideOn tree P k = some (m, o) ↔
      k = m ∧ h.overridable tree m = true ∧ h.near tree P (h.method m).signature = some o := by
  unfold overrideOn
  split
  · rename_i hk
    simp only [Option.map_eq_some_iff, Prod.mk.injEq]
    constructor
    · rintro ⟨o', hn, rfl, rfl⟩
      exact ⟨rfl, hk, hn⟩
    · rintro ⟨rfl, -, hn⟩
      exact ⟨o, hn, rfl, rfl⟩
  · rename_i hk
    simp only [reduceCtorEq, false_iff]
    rintro ⟨rfl, hm, -⟩
    exact hk hm

theorem overrideOn_map_snd (P : List Nat) (m : Nat) :
    (h.overrideOn tree P m).map Prod.snd =
      if h.overridable tree m then h.near tree P (h.method m).signature else none := by
  unfold overrideOn
  split
  · rw [Option.map_map]
    exact Option.map_id'
  · rfl

theorem mem_methodsOf {l : List Nat} {o : Nat} :
    o ∈ h.methodsOf l ↔ ∃ v ∈ l, o ∈ (h.node v).methods := by
  simp [methodsOf]

theorem near_eq_some {P : List Nat} {s : Signature} {o : Nat} (hn : h.near tree P s = some o) :
    o ∈ h.methodsOf P.tail.reverse ∧ h.inheritable tree o = true ∧
      (h.method o).signature = s := by
  have hmem := List.mem_filter.1 (List.mem_of_getLast? hn)
  obtain ⟨hinh, hsig⟩ := Bool.and_eq_true_iff.1 hmem.2
  exact ⟨hmem.1, hinh, beq_iff_eq.1 hsig⟩

theorem filterMap_eq_of_nodup {β : Type} {l : List Nat} (hl : l.Nodup) (m : Nat) (v : Option β) :
    l.filterMap (fun k => if k = m then v else none) = if m ∈ l then v.toList else [] := by
  induction l with
  | nil => simp
  | cons a l ih =>
    obtain ⟨ha, hl⟩ := List.nodup_cons.1 hl
    by_cases ham : a = m
    · subst ham
      cases v <;> simp [ih hl, ha]
    · simp [ham, ih hl, Ne.symm ham]

/-- Along a path down child edges, every node above the first is an ancestor of it. -/
theorem Edges.transGen_of_isChain {h : Hierarchy} (he : h.Edges) : ∀ {u : Nat} {above : List Nat},
    (u :: above).IsChain (fun a b => a ∈ (h.node b).children) → ∀ v ∈ above,
      Relation.TransGen (fun a b => b ∈ (h.node a).parents) u v
  | _, [], _ => by simp
  | u, w :: rest, hch => by
    rw [List.isChain_cons_cons] at hch
    have huw : w ∈ (h.node u).parents := (he.parent_iff_child u w).2 hch.1
    intro v hv
    rcases List.mem_cons.1 hv with rfl | hv
    · exact .single huw
    · exact .head huw (Edges.transGen_of_isChain he hch.2 v hv)

section Ready

variable {h}

/-- A path records an override of a stored method exactly when it ends at the method's
owner, the method takes part in overriding, and the path passes a method down under its
signature. -/
theorem Ready.mem_pathOverrides (hr : h.Ready) {m o : Nat} (hm : m < h.methods.size)
    (P : List Nat) :
    (m, o) ∈ h.pathOverrides tree P ↔ P.head? = some (h.method m).owner ∧
      h.overridable tree m = true ∧ h.near tree P (h.method m).signature = some o := by
  cases P with
  | nil => simp [pathOverrides]
  | cons u above =>
    rw [pathOverrides, List.mem_filterMap, List.head?_cons, Option.some.injEq]
    constructor
    · rintro ⟨k, hk, hon⟩
      obtain ⟨rfl, hov, hn⟩ := (overrideOn_eq_some tree h).1 hon
      exact ⟨((hr.mem_methods u k).1 (Array.mem_toList_iff.1 hk)).2.symm, hov, hn⟩
    · rintro ⟨hu, hov, hn⟩
      exact ⟨m, Array.mem_toList_iff.2 ((hr.mem_methods u m).2 ⟨hm, hu.symm⟩),
        (overrideOn_eq_some tree h).2 ⟨rfl, hov, hn⟩⟩

/-- What a path records for a stored method: what `overrideOn` gives on a path ending at its
owner, and nothing on any other path. -/
theorem Ready.filterMap_pathOverrides (hr : h.Ready) {m : Nat} (hm : m < h.methods.size)
    (P : List Nat) :
    (h.pathOverrides tree P).filterMap (fun e => if e.1 = m then some e.2 else none) =
      (if P.head? = some (h.method m).owner then (h.overrideOn tree P m).map Prod.snd
        else none).toList := by
  cases P with
  | nil => simp [pathOverrides]
  | cons u above =>
    rw [pathOverrides, List.filterMap_filterMap]
    -- only the entry of `m` itself records an override of `m`
    have hsel : ∀ k, ((h.overrideOn tree (u :: above) k).bind fun e =>
        if e.1 = m then some e.2 else none) =
        if k = m then (h.overrideOn tree (u :: above) m).map Prod.snd else none := by
      intro k
      cases hon : h.overrideOn tree (u :: above) k with
      | none =>
        by_cases hk : k = m
        · subst hk
          rw [if_pos rfl, hon]
          rfl
        · rw [if_neg hk]
          rfl
      | some e =>
        obtain ⟨k', o⟩ := e
        obtain ⟨rfl, -, -⟩ := (overrideOn_eq_some tree h).1 hon
        by_cases hk : k = m
        · subst hk
          simp [hon]
        · simp [hk]
    rw [List.filterMap_congr fun k _ => hsel k, filterMap_eq_of_nodup (hr.methods_nodup u)]
    -- `u` lists `m` exactly when it owns it
    have hmu :
        m ∈ (h.node u).methods.toList ↔ (u :: above).head? = some (h.method m).owner := by
      rw [Array.mem_toList_iff, hr.mem_methods, List.head?_cons, Option.some.injEq]
      exact ⟨fun hu => hu.2.symm, fun hu => ⟨hm, hu.symm⟩⟩
    by_cases hin : m ∈ (h.node u).methods.toList
    · rw [if_pos hin, if_pos (hmu.1 hin)]
    · rw [if_neg hin, if_neg (mt hmu.2 hin)]
      rfl

/-- The search from a ready hierarchy: `m` is among the methods overriding `o` exactly when
some simple path from a root to the owner of `m` records it. -/
theorem Ready.mem_overriddenBy_iff (hr : h.Ready) {m o : Nat} (hm : m < h.methods.size)
    (ho : o < h.methods.size) :
    m ∈ ((h.setOverrides (h.searchPaths.flatMap (h.pathOverrides tree))).method o).overriddenBy
      ↔
      h.overridable tree m = true ∧ ∃ P, h.RootPath P ∧ P.head? = some (h.method m).owner ∧
        h.near tree P (h.method m).signature = some o := by
  rw [mem_overriddenBy_setOverrides, (hr.fresh o).2, List.mem_flatMap]
  simp only [List.not_mem_nil, false_or, ho, true_and]
  constructor
  · rintro ⟨P, hP, hmP⟩
    obtain ⟨hhead, hov, hn⟩ := (hr.mem_pathOverrides tree hm P).1 hmP
    exact ⟨hov, P, h.mem_searchPaths.1 hP, hhead, hn⟩
  · rintro ⟨hov, P, hP, hhead, hn⟩
    exact ⟨P, h.mem_searchPaths.2 hP, (hr.mem_pathOverrides tree hm P).2 ⟨hhead, hov, hn⟩⟩

/-- The search from a ready hierarchy: a stored method overrides what the last path ending at
its owner, in the order of the search, passes down to it. -/
theorem Ready.overrides_eq (hr : h.Ready) {m : Nat} (hm : m < h.methods.size) :
    ((h.setOverrides (h.searchPaths.flatMap (h.pathOverrides tree))).method m).overrides =
      if h.overridable tree m then
        (h.searchPaths.filterMap fun P =>
          if P.head? = some (h.method m).owner then h.near tree P (h.method m).signature
          else none).getLast?
      else none := by
  rw [overrides_setOverrides _ _ hm, (hr.fresh m).1, Option.or_none, List.filterMap_flatMap,
    List.flatMap_congr fun P _ => hr.filterMap_pathOverrides tree hm P,
    ← List.filterMap_eq_flatMap_toList]
  simp only [overrideOn_map_snd]
  by_cases hov : h.overridable tree m = true <;> simp [hov]

/-- What a path passes down to a node is a method of another node above it on the path, an
ancestor, of the signature asked for. -/
theorem Ready.near_eq_some (hr : h.Ready) {P : List Nat} (hP : h.RootPath P) {u : Nat}
    (hhead : P.head? = some u) {s : Signature} {o : Nat} (hn : h.near tree P s = some o) :
    o < h.methods.size ∧ (h.method o).signature = s ∧ (h.method o).owner ≠ u ∧
      Relation.TransGen (fun a b => b ∈ (h.node a).parents) u (h.method o).owner := by
  obtain ⟨hmem, -, hsig⟩ := Hierarchy.near_eq_some tree h hn
  obtain ⟨v, hv, ho⟩ := (mem_methodsOf h).1 hmem
  obtain ⟨holt, hown⟩ := (hr.mem_methods v o).1 ho
  obtain ⟨above, rfl⟩ : ∃ above, P = u :: above := by
    cases P with
    | nil => cases hhead
    | cons a above =>
      cases hhead
      exact ⟨above, rfl⟩
  rw [List.tail_cons, List.mem_reverse] at hv
  refine ⟨holt, hsig, ?_, ?_⟩
  · -- the path is simple, so `v` is not its first node
    rw [hown]
    rintro rfl
    exact (List.nodup_cons.1 hP.nodup).1 hv
  · rw [hown]
    exact hr.edges.transGen_of_isChain hP.chain v hv

end Ready

theorem method_of_size_le {h : Hierarchy} {i : Nat} (hi : h.methods.size ≤ i) :
    h.method i = default := by
  unfold method
  rw [Array.getElem?_eq_none hi]
  rfl

/-- The overrides recorded in a hierarchy are those the simple paths down from its roots
give. For methods `m` and `o`:

* `m` is among the methods overriding `o` exactly when `m` takes part in overriding (it is
  neither private nor static) and some simple path from a root down to the owner of `m`
  passes `o` down under the signature of `m`;
* `m` overrides what the last such path, in the order of the search (roots ascending,
  children in list order), passes down to it, and nothing when it does not take part in
  overriding or no such path passes anything down;
* so a method overrides only a method of its own signature, owned by a proper ancestor of
  its owner, that lists it among the methods overriding it. -/
structure OverridesAlongPaths (tree : SymbolTree) (T : Hierarchy) : Prop where
  mem_overriddenBy : ∀ m o, m < T.methods.size → o < T.methods.size →
    (m ∈ (T.method o).overriddenBy ↔ T.overridable tree m = true ∧
      ∃ P, T.RootPath P ∧ P.head? = some (T.method m).owner ∧
        T.near tree P (T.method m).signature = some o)
  overrides_eq : ∀ m, m < T.methods.size → (T.method m).overrides =
    if T.overridable tree m then
      (T.searchPaths.filterMap fun P =>
        if P.head? = some (T.method m).owner then T.near tree P (T.method m).signature
        else none).getLast?
    else none
  overrides_some : ∀ m o, (T.method m).overrides = some o →
    m ∈ (T.method o).overriddenBy ∧ (T.method o).signature = (T.method m).signature ∧
      (T.method o).owner ≠ (T.method m).owner ∧
      Relation.TransGen (fun a b => b ∈ (T.node a).parents) (T.method m).owner (T.method o).owner

/-- The search from a ready hierarchy records the overrides along its paths. -/
theorem Ready.overridesAlongPaths {h : Hierarchy} (hr : h.Ready) :
    (h.setOverrides (h.searchPaths.flatMap (h.pathOverrides tree))).OverridesAlongPaths tree := by
  have hc := sameCore_setOverrides h (h.searchPaths.flatMap (h.pathOverrides tree))
  refine ⟨fun m o hm ho => ?_, fun m hm => ?_, fun m o hmo => ?_⟩
  · rw [hc.size] at hm ho
    simp only [hc.overridable, hc.near, hc.owner, hc.signature, hc.rootPath_iff]
    exact hr.mem_overriddenBy_iff tree hm ho
  · rw [hc.size] at hm
    simp only [hc.overridable, hc.near, hc.owner, hc.signature, hc.searchPaths]
    exact hr.overrides_eq tree hm
  · -- a method past the table overrides nothing
    have hm : m < h.methods.size := by
      by_contra hm
      rw [method_of_size_le (by rw [hc.size]; omega)] at hmo
      cases hmo
    -- the last path passing a method down to `m`
    rw [hr.overrides_eq tree hm] at hmo
    split at hmo
    · rename_i hov
      obtain ⟨P, hP, hPo⟩ := List.mem_filterMap.1 (List.mem_of_getLast? hmo)
      split at hPo
      · rename_i hhead
        have hroot := h.mem_searchPaths.1 hP
        obtain ⟨ho, hsig, hne, hanc⟩ := hr.near_eq_some tree hroot hhead hPo
        refine ⟨(hr.mem_overriddenBy_iff tree hm ho).2 ⟨hov, P, hroot, hhead, hPo⟩,
          ?_, ?_, ?_⟩
        · rw [hc.signature, hc.signature]
          exact hsig
        · rw [hc.owner, hc.owner]
          exact hne
        · rw [hc.node, hc.owner, hc.owner]
          exact hanc
      · cases hPo
    · cases hmo

end Hierarchy

/-- The overrides a built hierarchy records, for any tree and any shape of inheritance,
multiple inheritance and cycles included, are those the simple paths down from its roots
give (`Hierarchy.OverridesAlongPaths`). -/
theorem hierarchy_overridesAlongPaths {tree : SymbolTree} {T : Hierarchy}
    (hT : tree.hierarchy = .ok T) : T.OverridesAlongPaths tree := by
  obtain ⟨h, hr, rfl⟩ := hierarchy_eq_ok hT
  rw [Hierarchy.roots_findOverrides]
  exact hr.overridesAlongPaths tree

/-- The Java codebase of a class and a subclass overriding its method has a hierarchy, and it
records the overrides along its paths. -/
theorem shop_overridesAlongPaths :
    ∃ T, ((Corpus.addFile { name := "shop", languages := ["java"] } "Shop.java"
        "class A { void f(int n) {} }\nclass B extends A { void f(int n) {} }").1.codebases[0]?.getD
          (⟨.java, SymbolTree.new "shop" "java", 0⟩ : Codebase)).tree.hierarchy = .ok T ∧
      T.OverridesAlongPaths ((Corpus.addFile { name := "shop", languages := ["java"] } "Shop.java"
        "class A { void f(int n) {} }\nclass B extends A { void f(int n) {} }").1.codebases[0]?.getD
          (⟨.java, SymbolTree.new "shop" "java", 0⟩ : Codebase)).tree := by
  obtain ⟨T, hT, -⟩ := hierarchy_wellFormed (Corpus.getD_shaped
    (Corpus.Reachable.addFile _ _ (.new "shop" ["java"])).shaped 0
    ⟨.java, SymbolTree.new "shop" "java", 0⟩ (SymbolTree.shaped_new "shop" "java"))
  exact ⟨T, hT, hierarchy_overridesAlongPaths hT⟩

end Lineage
