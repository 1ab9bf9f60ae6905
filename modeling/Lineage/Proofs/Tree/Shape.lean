import Lineage.Symbol.Basic
import Mathlib.Data.List.Nodup
/-!
The shape of a symbol tree.

A tree is `Linked` when its two records of containment agree: `c` is among the children of
`p` exactly when `p` is the parent of `c`, and each child is listed once. The root is the
project and has no parent, no scope has two packages of one name, and a child located in
its parent's file lies inside the parent's span. A `Shaped` tree is linked and every symbol
in it lies within the root: following parents from any stored symbol reaches index 0.

This module gives each operation that grows a tree its effect on the fields these
predicates read, and then what it needs to keep them:

* `Linked.alloc`, `Linked.modify`, `Linked.link`: storing, changing and attaching symbols;
* `nest_eq_ok`: `nest` succeeds and links whenever its three refusals do not apply;
* `Grounded.alloc`, `Grounded.link`: where chains of parents end, when a scan attaches
  symbols stored earlier below symbols stored later;
* `Shaped.packageChild`, `Shaped.packagePath`: creating packages keeps a tree shaped.

Chains of parents are read through `climb`, which follows a given number of parent links,
so that "lies within" has a length to do induction on.
-/
namespace Lineage

/-- Two versions of a symbol that agree on everything the shape of a tree reads. -/
structure Symbol.SameShape (a b : Symbol) : Prop where
  parent : a.parent = b.parent
  children : a.children = b.children
  name : a.name = b.name
  file : a.file = b.file
  span : a.span = b.span
  package : SymbolClass.package.accepts a.kind = SymbolClass.package.accepts b.kind

theorem Symbol.SameShape.refl (a : Symbol) : a.SameShape a := ⟨rfl, rfl, rfl, rfl, rfl, rfl⟩

theorem Symbol.SameShape.trans {a b c : Symbol} (hab : a.SameShape b) (hbc : b.SameShape c) :
    a.SameShape c :=
  ⟨hab.parent.trans hbc.parent, hab.children.trans hbc.children, hab.name.trans hbc.name,
    hab.file.trans hbc.file, hab.span.trans hbc.span, hab.package.trans hbc.package⟩

namespace SymbolTree

/-- Follows `n` parent links from a symbol; none when the chain stops before. -/
def climb (t : SymbolTree) : Nat → Nat → Option Nat
  | 0, i => some i
  | n + 1, i => (t.get i).parent.bind (t.climb n)

/-- Symbol `i` lies within symbol `r`: following parents from `i` reaches `r`. -/
def Within (t : SymbolTree) (i r : Nat) : Prop := ∃ n, t.climb n i = some r

/-- Every stored symbol lies within a symbol that `top` accepts. -/
def Grounded (t : SymbolTree) (top : Nat → Prop) : Prop :=
  ∀ i < t.size, ∃ r, top r ∧ t.Within i r

/-- The records of containment agree, and the root, the packages, the spans and the file
indices are as the scanners leave them. -/
structure Linked (t : SymbolTree) : Prop where
  nonempty : 0 < t.size
  root_project : ∃ l, (t.get 0).kind = .project l
  root_parent : (t.get 0).parent = none
  mem_children : ∀ p c, c ∈ (t.get p).children ↔ (t.get c).parent = some p
  children_nodup : ∀ p, (t.get p).children.toList.Nodup
  packages_distinct : ∀ p a b, a ∈ (t.get p).children → b ∈ (t.get p).children →
    SymbolClass.package.accepts (t.get a).kind → SymbolClass.package.accepts (t.get b).kind →
    (t.get a).name = (t.get b).name → a = b
  span_within : ∀ c p f cs ps, (t.get c).parent = some p → (t.get c).file = some f →
    (t.get p).file = some f → (t.get c).span = some cs → (t.get p).span = some ps →
    ps.contains cs
  file_lt : ∀ i f, (t.get i).file = some f → f < t.files.size

/-- A linked tree in which every stored symbol lies within the root. -/
structure Shaped (t : SymbolTree) : Prop extends t.Linked where
  rooted : ∀ i < t.size, t.Within i 0

/-- No symbol of the tree is located in file `f`. -/
def FileFresh (t : SymbolTree) (f : Nat) : Prop := ∀ i, (t.get i).file ≠ some f

/-! ### Reading stored symbols -/

theorem get_of_size_le {t : SymbolTree} {i : Nat} (h : t.size ≤ i) : t.get i = default := by
  simp only [get, size] at *
  simp [h]

@[simp] theorem default_parent : (default : Symbol).parent = none := rfl

@[simp] theorem default_children : (default : Symbol).children = #[] := rfl

@[simp] theorem default_file : (default : Symbol).file = none := rfl

@[simp] theorem size_alloc (t : SymbolTree) (s : Symbol) : (t.alloc s).1.size = t.size + 1 := by
  simp [alloc, size]

@[simp] theorem alloc_snd (t : SymbolTree) (s : Symbol) : (t.alloc s).2 = t.size := rfl

@[simp] theorem files_alloc (t : SymbolTree) (s : Symbol) : (t.alloc s).1.files = t.files := rfl

theorem get_alloc (t : SymbolTree) (s : Symbol) (i : Nat) :
    (t.alloc s).1.get i = if i = t.size then s else t.get i := by
  simp only [get, alloc, size, Array.getElem?_push]
  by_cases hi : i = t.symbols.size <;> simp [hi]

@[simp] theorem size_modify (t : SymbolTree) (id : Nat) (f : Symbol → Symbol) :
    (t.modify id f).size = t.size := by
  simp [modify, size]

@[simp] theorem files_modify (t : SymbolTree) (id : Nat) (f : Symbol → Symbol) :
    (t.modify id f).files = t.files := rfl

theorem get_modify {t : SymbolTree} {id : Nat} (f : Symbol → Symbol) (h : id < t.size)
    (i : Nat) : (t.modify id f).get i = if i = id then f (t.get i) else t.get i := by
  by_cases hi : i = id
  · subst hi
    simp only [get, modify, Array.getElem?_modify, if_true]
    simp only [size] at h
    simp [h]
  · simp only [get, modify, Array.getElem?_modify, if_neg (Ne.symm hi), if_neg hi]

theorem get_modify_of_size_le {t : SymbolTree} {id : Nat} (f : Symbol → Symbol)
    (h : t.size ≤ id) (i : Nat) : (t.modify id f).get i = t.get i := by
  by_cases hi : i = id
  · subst hi
    rw [get_of_size_le (by simpa using h), get_of_size_le h]
  · simp only [get, modify, Array.getElem?_modify, if_neg (Ne.symm hi)]

/-- Changing one symbol changes nothing else, and nothing at all past the end. -/
theorem get_modify_ne {t : SymbolTree} {id i : Nat} (f : Symbol → Symbol) (hi : i ≠ id) :
    (t.modify id f).get i = t.get i := by
  simp only [get, modify, Array.getElem?_modify, if_neg (Ne.symm hi)]

@[simp] theorem size_link (t : SymbolTree) (p c : Nat) : (t.link p c).size = t.size := by
  simp [link]

@[simp] theorem files_link (t : SymbolTree) (p c : Nat) : (t.link p c).files = t.files := rfl

theorem get_link {t : SymbolTree} {p c : Nat} (hp : p < t.size) (hc : c < t.size) (i : Nat) :
    (t.link p c).get i =
      { t.get i with
        parent := if i = c then some p else (t.get i).parent
        children := if i = p then (t.get i).children.push c else (t.get i).children } := by
  unfold link
  rw [get_modify _ (by simpa using hp), get_modify _ hc]
  by_cases hip : i = p <;> by_cases hic : i = c <;> simp_all

/-- A change that keeps a symbol's name and span keeps those of every symbol, whether the
index changed is in the tree or not. -/
theorem get_modify_name_span (t : SymbolTree) (id : Nat) {f : Symbol → Symbol}
    (hf : ∀ s, (f s).name = s.name ∧ (f s).span = s.span) (i : Nat) :
    ((t.modify id f).get i).name = (t.get i).name ∧
      ((t.modify id f).get i).span = (t.get i).span := by
  by_cases hid : id < t.size
  · rw [get_modify f hid]
    split
    · exact hf _
    · exact ⟨rfl, rfl⟩
  · rw [get_modify_of_size_le f (Nat.le_of_not_lt hid)]
    exact ⟨rfl, rfl⟩

/-- Linking renames and moves no symbol. -/
theorem get_link_name_span (t : SymbolTree) (p c i : Nat) :
    ((t.link p c).get i).name = (t.get i).name ∧ ((t.link p c).get i).span = (t.get i).span := by
  unfold link
  obtain ⟨h₁, h₂⟩ := get_modify_name_span (t.modify c fun s => { s with parent := some p })
    p (f := fun s => { s with children := s.children.push c }) (fun _ => ⟨rfl, rfl⟩) i
  obtain ⟨h₃, h₄⟩ := get_modify_name_span t c (f := fun s => { s with parent := some p })
    (fun _ => ⟨rfl, rfl⟩) i
  exact ⟨h₁.trans h₃, h₂.trans h₄⟩

/-- Storing a symbol and then changing it stores the changed symbol. -/
theorem alloc_modify (t : SymbolTree) (s : Symbol) (f : Symbol → Symbol) :
    (t.alloc s).1.modify t.size f = (t.alloc (f s)).1 := by
  simp [alloc, modify, size, Array.modify, Array.modifyM, Array.set_push]

/-! ### Chains of parents -/

@[simp] theorem climb_zero (t : SymbolTree) (i : Nat) : t.climb 0 i = some i := rfl

theorem climb_succ (t : SymbolTree) (n i : Nat) :
    t.climb (n + 1) i = (t.get i).parent.bind (t.climb n) := rfl

theorem climb_one (t : SymbolTree) (i : Nat) : t.climb 1 i = (t.get i).parent := by
  rw [climb_succ]
  cases (t.get i).parent <;> rfl

theorem climb_add (t : SymbolTree) (n m i : Nat) :
    t.climb (n + m) i = (t.climb n i).bind (t.climb m) := by
  induction n generalizing i with
  | zero => simp
  | succ n ih =>
    rw [Nat.add_right_comm, climb_succ, climb_succ]
    cases (t.get i).parent with
    | none => rfl
    | some q => simp [ih]

theorem Within.refl (t : SymbolTree) (i : Nat) : t.Within i i := ⟨0, rfl⟩

theorem Within.trans {t : SymbolTree} {i j k : Nat} (hij : t.Within i j) (hjk : t.Within j k) :
    t.Within i k := by
  obtain ⟨n, hn⟩ := hij
  obtain ⟨m, hm⟩ := hjk
  exact ⟨n + m, by rw [climb_add, hn]; exact hm⟩

theorem Within.of_parent {t : SymbolTree} {i p : Nat} (h : (t.get i).parent = some p) :
    t.Within i p :=
  ⟨1, by simp [climb_succ, h]⟩

/-- Trees whose symbols have the same parents have the same chains. -/
theorem climb_congr {t t' : SymbolTree} (h : ∀ i, (t'.get i).parent = (t.get i).parent) :
    t'.climb = t.climb := by
  funext n i
  induction n generalizing i with
  | zero => rfl
  | succ n ih => simp only [climb_succ, h, funext ih]

/-- A chain that does not end at `c` is not changed by attaching `c`: a symbol without a
parent can only end a chain. -/
theorem climb_link_of_ne {t : SymbolTree} {p c n i r : Nat} (hp : p < t.size) (hc : c < t.size)
    (hfree : (t.get c).parent = none) (h : t.climb n i = some r) (hr : r ≠ c) :
    (t.link p c).climb n i = some r := by
  induction n generalizing i with
  | zero => exact h
  | succ n ih =>
    rw [climb_succ] at h ⊢
    obtain ⟨q, hq, hrest⟩ := Option.bind_eq_some_iff.1 h
    have hi : i ≠ c := by
      rintro rfl
      simp [hfree] at hq
    simp only [get_link hp hc, if_neg hi, hq, Option.bind_some]
    exact ih hrest

/-- A chain that ended at `c` goes on to `p` once `c` is attached below `p`. -/
theorem climb_link_to {t : SymbolTree} {p c n i : Nat} (hp : p < t.size) (hc : c < t.size)
    (hfree : (t.get c).parent = none) (h : t.climb n i = some c) :
    (t.link p c).climb (n + 1) i = some p := by
  induction n generalizing i with
  | zero =>
    obtain rfl : i = c := by simpa using h
    simp [climb_succ, get_link hp hc]
  | succ n ih =>
    rw [climb_succ] at h
    obtain ⟨q, hq, hrest⟩ := Option.bind_eq_some_iff.1 h
    have hi : i ≠ c := by
      rintro rfl
      simp [hfree] at hq
    rw [climb_succ]
    simp only [get_link hp hc, if_neg hi, hq, Option.bind_some]
    exact ih hrest

/-! ### Where chains end -/

theorem Grounded.mono {t : SymbolTree} {top top' : Nat → Prop} (h : t.Grounded top)
    (htop : ∀ r, top r → top' r) : t.Grounded top' := by
  intro i hi
  obtain ⟨r, hr, hw⟩ := h i hi
  exact ⟨r, htop r hr, hw⟩

/-- A stored symbol without a parent ends its own chain. -/
theorem Grounded.alloc {t : SymbolTree} {top : Nat → Prop} (h : t.Grounded top) {s : Symbol}
    (hs : s.parent = none) : (t.alloc s).1.Grounded (fun r => top r ∨ r = t.size) := by
  have hclimb : (t.alloc s).1.climb = t.climb := climb_congr fun i => by
    rw [get_alloc]
    split
    · rename_i hi
      rw [hs, get_of_size_le (Nat.le_of_eq hi.symm)]
      rfl
    · rfl
  intro i hi
  rw [size_alloc] at hi
  by_cases hnew : i = t.size
  · exact ⟨i, Or.inr hnew, Within.refl _ _⟩
  · obtain ⟨r, hr, n, hn⟩ := h i (by omega)
    exact ⟨r, Or.inl hr, n, by rw [hclimb]; exact hn⟩

/-- Attaching `c` below `p` moves every chain that ended at `c` on to where the chain of
`p` ends. -/
theorem Grounded.link {t : SymbolTree} {top : Nat → Prop} {p c rp : Nat} (h : t.Grounded top)
    (hp : p < t.size) (hc : c < t.size) (hfree : (t.get c).parent = none)
    (hrp : t.Within p rp) (htop : top rp) (hne : rp ≠ c) :
    (t.link p c).Grounded (fun r => top r ∧ r ≠ c) := by
  obtain ⟨m, hm⟩ := hrp
  have hpm : (t.link p c).climb m p = some rp := climb_link_of_ne hp hc hfree hm hne
  intro i hi
  rw [size_link] at hi
  obtain ⟨r, hr, n, hn⟩ := h i hi
  by_cases hrc : r = c
  · subst hrc
    refine ⟨rp, ⟨htop, hne⟩, n + 1 + m, ?_⟩
    rw [climb_add, climb_link_to hp hc hfree hn]
    exact hpm
  · exact ⟨r, ⟨hr, hrc⟩, n, climb_link_of_ne hp hc hfree hn hrc⟩

/-! ### Linked trees -/

namespace Linked

variable {t : SymbolTree}

theorem lt_of_parent {c p : Nat} (hc : (t.get c).parent = some p) : c < t.size := by
  by_contra hlt
  rw [get_of_size_le (by omega)] at hc
  cases hc

theorem parent_lt (h : t.Linked) {c p : Nat} (hc : (t.get c).parent = some p) : p < t.size := by
  have hmem : c ∈ (t.get p).children := (h.mem_children p c).2 hc
  by_contra hlt
  rw [get_of_size_le (by omega)] at hmem
  simp at hmem

theorem lt_of_mem_children (h : t.Linked) {p c : Nat} (hc : c ∈ (t.get p).children) :
    c < t.size :=
  lt_of_parent ((h.mem_children p c).1 hc)

/-- The root is nobody's child. -/
theorem ne_root_of_mem_children (h : t.Linked) {p c : Nat} (hc : c ∈ (t.get p).children) :
    c ≠ 0 := by
  rintro rfl
  rw [h.mem_children, h.root_parent] at hc
  cases hc

/-- A symbol without a parent is nobody's child. -/
theorem not_mem_children (h : t.Linked) {p c : Nat} (hfree : (t.get c).parent = none) :
    c ∉ (t.get p).children := by
  rw [h.mem_children, hfree]
  simp

/-- A tree whose symbols agree in shape with those of a linked tree, and whose root is
still the project, is linked. -/
theorem congr {t' : SymbolTree} (h : t.Linked) (hsize : t'.size = t.size)
    (hfiles : t'.files.size = t.files.size) (hsame : ∀ i, (t'.get i).SameShape (t.get i))
    (hroot : ∃ l, (t'.get 0).kind = .project l) : t'.Linked where
  nonempty := hsize ▸ h.nonempty
  root_project := hroot
  root_parent := (hsame 0).parent.trans h.root_parent
  mem_children p c := by
    rw [(hsame p).children, (hsame c).parent]
    exact h.mem_children p c
  children_nodup p := by
    rw [(hsame p).children]
    exact h.children_nodup p
  packages_distinct p a b ha hb hpa hpb hname := by
    rw [(hsame p).children] at ha hb
    rw [(hsame a).package] at hpa
    rw [(hsame b).package] at hpb
    rw [(hsame a).name, (hsame b).name] at hname
    exact h.packages_distinct p a b ha hb hpa hpb hname
  span_within c p f cs ps hc hcf hpf hcs hps := by
    rw [(hsame c).parent] at hc
    rw [(hsame c).file] at hcf
    rw [(hsame p).file] at hpf
    rw [(hsame c).span] at hcs
    rw [(hsame p).span] at hps
    exact h.span_within c p f cs ps hc hcf hpf hcs hps
  file_lt i f hf := by
    rw [(hsame i).file] at hf
    exact hfiles ▸ h.file_lt i f hf

/-- Changing a symbol without changing its shape keeps a tree linked; the root keeps its
kind. -/
theorem modify (h : t.Linked) {id : Nat} {f : Symbol → Symbol}
    (hsame : (f (t.get id)).SameShape (t.get id))
    (hroot : id ≠ 0 ∨ (f (t.get id)).kind = (t.get id).kind) : (t.modify id f).Linked := by
  by_cases hid : id < t.size
  · have hget := get_modify f hid
    refine h.congr (size_modify _ _ _) rfl (fun i => ?_) ?_
    · rw [hget]
      split
      · subst i
        exact hsame
      · exact Symbol.SameShape.refl _
    · rw [hget]
      split
      · rename_i h0
        subst h0
        rcases hroot with hne | hkind
        · exact absurd rfl hne
        · rw [hkind]
          exact h.root_project
      · exact h.root_project
  · have hget := get_modify_of_size_le f (Nat.le_of_not_lt hid)
    refine h.congr (size_modify _ _ _) rfl (fun i => ?_) ?_
    · rw [hget]
      exact Symbol.SameShape.refl _
    · rw [hget]
      exact h.root_project

/-- Storing a symbol without parent and children keeps a tree linked. -/
theorem alloc (h : t.Linked) {s : Symbol} (hp : s.parent = none) (hc : s.children = #[])
    (hfile : ∀ f, s.file = some f → f < t.files.size) : (t.alloc s).1.Linked where
  nonempty := by simp
  root_project := by
    rw [get_alloc, if_neg (Nat.ne_of_lt h.nonempty)]
    exact h.root_project
  root_parent := by
    rw [get_alloc, if_neg (Nat.ne_of_lt h.nonempty)]
    exact h.root_parent
  mem_children p c := by
    rw [get_alloc, get_alloc]
    by_cases hp' : p = t.size
    · rw [if_pos hp', hc]
      constructor
      · simp
      · intro hpar
        split at hpar
        · simp [hp] at hpar
        · exact absurd (h.parent_lt hpar) (by omega)
    · rw [if_neg hp']
      by_cases hc' : c = t.size
      · rw [if_pos hc', hp]
        subst hc'
        simp only [reduceCtorEq, iff_false]
        intro hmem
        exact absurd (h.lt_of_mem_children hmem) (Nat.lt_irrefl _)
      · rw [if_neg hc']
        exact h.mem_children p c
  children_nodup p := by
    rw [get_alloc]
    split
    · simp [hc]
    · exact h.children_nodup p
  packages_distinct p a b ha hb hpa hpb hname := by
    by_cases hp' : p = t.size
    · rw [get_alloc, if_pos hp', hc] at ha
      simp at ha
    · rw [get_alloc, if_neg hp'] at ha hb
      have hold : ∀ x, x ∈ (t.get p).children → (t.alloc s).1.get x = t.get x := fun x hx => by
        rw [get_alloc, if_neg (Nat.ne_of_lt (h.lt_of_mem_children hx))]
      rw [hold a ha] at hpa hname
      rw [hold b hb] at hpb hname
      exact h.packages_distinct p a b ha hb hpa hpb hname
  span_within c p f cs ps hcp hcf hpf hcs hps := by
    by_cases hc' : c = t.size
    · rw [get_alloc, if_pos hc', hp] at hcp
      cases hcp
    · rw [get_alloc, if_neg hc'] at hcp hcf hcs
      have hpl := h.parent_lt hcp
      rw [get_alloc, if_neg (Nat.ne_of_lt hpl)] at hpf hps
      exact h.span_within c p f cs ps hcp hcf hpf hcs hps
  file_lt i f hf := by
    rw [get_alloc] at hf
    split at hf
    · exact hfile f hf
    · exact h.file_lt i f hf

/-- Attaching a symbol without a parent below another keeps a tree linked, when it is not a
second package of its name there and its span lies inside the parent's in a shared file. -/
theorem link (h : t.Linked) {p c : Nat} (hp : p < t.size) (hc : c < t.size) (hc0 : c ≠ 0)
    (hfree : (t.get c).parent = none)
    (hpkg : SymbolClass.package.accepts (t.get c).kind → ∀ b ∈ (t.get p).children,
      SymbolClass.package.accepts (t.get b).kind → (t.get b).name ≠ (t.get c).name)
    (hspan : ∀ f cs ps, (t.get c).file = some f → (t.get p).file = some f →
      (t.get c).span = some cs → (t.get p).span = some ps → ps.contains cs) :
    (t.link p c).Linked where
  nonempty := by simpa using h.nonempty
  root_project := by simpa [get_link hp hc] using h.root_project
  root_parent := by simpa [get_link hp hc, Ne.symm hc0] using h.root_parent
  mem_children p' c' := by
    simp only [get_link hp hc]
    by_cases hp' : p' = p <;> by_cases hc' : c' = c
    · subst hp' hc'
      simp
    · subst hp'
      simp only [if_true, Array.mem_push, hc', or_false, if_false]
      exact h.mem_children p' c'
    · subst hc'
      simp only [if_neg hp', if_true, Option.some.injEq, Ne.symm hp', iff_false]
      exact h.not_mem_children hfree
    · simp only [if_neg hp', if_neg hc']
      exact h.mem_children p' c'
  children_nodup p' := by
    simp only [get_link hp hc]
    split
    · rename_i hp'
      subst hp'
      rw [Array.toList_push, ← List.concat_eq_append, List.nodup_concat]
      exact ⟨fun hmem => h.not_mem_children hfree (Array.mem_toList_iff.1 hmem),
        h.children_nodup p'⟩
    · exact h.children_nodup p'
  packages_distinct p' a b ha hb hpa hpb hname := by
    simp only [get_link hp hc] at ha hb hpa hpb hname
    split at ha
    · rename_i hp'
      subst hp'
      simp only [Array.mem_push] at ha
      simp only [if_true, Array.mem_push] at hb
      rcases ha with ha | rfl <;> rcases hb with hb | rfl
      · exact h.packages_distinct p' a b ha hb hpa hpb hname
      · exact absurd hname (hpkg hpb a ha hpa)
      · exact absurd hname.symm (hpkg hpa b hb hpb)
      · rfl
    · rename_i hp'
      simp only [if_neg hp'] at hb
      exact h.packages_distinct p' a b ha hb hpa hpb hname
  span_within c' p'' f cs ps hcp hcf hpf hcs hps := by
    simp only [get_link hp hc] at hcp hcf hpf hcs hps
    split at hcp
    · rename_i hc'
      subst hc'
      obtain rfl : p = p'' := Option.some.inj hcp
      exact hspan f cs ps hcf hpf hcs hps
    · exact h.span_within c' p'' f cs ps hcp hcf hpf hcs hps
  file_lt i f hf := by
    simp only [get_link hp hc] at hf
    simpa using h.file_lt i f hf

end Linked

/-! ### Attaching with checks -/

/-- What `nest` checks before attaching `c` below `p`: two different symbols, `c` without
a parent, and `c`'s span inside `p`'s when both are located in one file. -/
def Nestable (t : SymbolTree) (p c : Nat) : Prop :=
  p ≠ c ∧ (t.get c).parent = none ∧
    ∀ f ps cs, (t.get p).file = some f → (t.get c).file = some f →
      (t.get p).span = some ps → (t.get c).span = some cs → ps.contains cs

theorem nest_eq_ok {t : SymbolTree} {p c : Nat} (h : t.Nestable p c) :
    t.nest p c = .ok (t.link p c) := by
  obtain ⟨hne, hfree, hspan⟩ := h
  unfold nest
  simp only [beq_iff_eq, hne, if_false, hfree]
  split
  · rename_i ps cs hps hcs
    split
    · rename_i hbad
      simp only [Bool.and_eq_true, Option.isSome_iff_exists, beq_iff_eq, Bool.not_eq_true'] at hbad
      obtain ⟨⟨⟨f, hf⟩, hsame⟩, hout⟩ := hbad
      rw [hspan f ps cs hf (hsame ▸ hf) hps hcs] at hout
      cases hout
    · rfl
  · rfl

/-! ### Shaped trees -/

theorem Shaped.grounded {t : SymbolTree} (h : t.Shaped) : t.Grounded (· = 0) :=
  fun i hi => ⟨0, rfl, h.rooted i hi⟩

theorem Shaped.of_grounded {t : SymbolTree} (h : t.Linked) (hg : t.Grounded (· = 0)) :
    t.Shaped where
  toLinked := h
  rooted i hi := by
    obtain ⟨r, rfl, hw⟩ := hg i hi
    exact hw

theorem climb_alloc (t : SymbolTree) {s : Symbol} (hs : s.parent = none) :
    (t.alloc s).1.climb = t.climb :=
  climb_congr fun i => by
    rw [get_alloc]
    split
    · rename_i hi
      rw [hs, get_of_size_le (Nat.le_of_eq hi.symm)]
      rfl
    · rfl

/-- The tree of a new project holds its root alone. -/
theorem shaped_new (name language : String) : (SymbolTree.new name language).Shaped := by
  have hget : ∀ i, (SymbolTree.new name language).get i =
      if i = 0 then { name, kind := .project language } else default := by
    intro i
    rcases i with _ | i <;> simp [SymbolTree.new, get]
  refine Shaped.of_grounded ⟨by simp [SymbolTree.new, size], ⟨language, by simp [hget]⟩, by simp [hget],
    fun p c => ?_, fun p => ?_, fun p a b ha => ?_, fun c p f cs ps hc => ?_,
    fun i f hf => ?_⟩ ?_
  · rw [hget, hget]
    split <;> split <;> simp
  · rw [hget]
    split <;> simp
  · rw [hget] at ha
    split at ha <;> simp at ha
  · rw [hget] at hc
    split at hc <;> simp at hc
  · rw [hget] at hf
    split at hf <;> simp at hf
  · intro i hi
    obtain rfl : i = 0 := by simpa [SymbolTree.new, size] using hi
    exact ⟨0, rfl, Within.refl _ _⟩

/-- Attaching a freshly stored symbol below a stored one keeps a tree shaped, when the
symbol is not a second package of its name there and lies inside its parent's span in a
shared file. -/
theorem Shaped.attach {t : SymbolTree} (h : t.Shaped) {p : Nat} {s : Symbol} (hp : p < t.size)
    (hsp : s.parent = none) (hsc : s.children = #[])
    (hfile : ∀ f, s.file = some f → f < t.files.size)
    (hpkg : SymbolClass.package.accepts s.kind → ∀ b ∈ (t.get p).children,
      SymbolClass.package.accepts (t.get b).kind → (t.get b).name ≠ s.name)
    (hspan : ∀ f cs ps, s.file = some f → (t.get p).file = some f → s.span = some cs →
      (t.get p).span = some ps → ps.contains cs) :
    ((t.alloc s).1.link p t.size).Shaped := by
  have hold : (t.alloc s).1.get p = t.get p := by rw [get_alloc, if_neg (Nat.ne_of_lt hp)]
  have hnew : (t.alloc s).1.get t.size = s := by rw [get_alloc, if_pos rfl]
  have hlinked := h.toLinked.alloc hsp hsc hfile
  have hp' : p < (t.alloc s).1.size := by simp; omega
  have hc' : t.size < (t.alloc s).1.size := by simp
  refine Shaped.of_grounded (hlinked.link hp' hc' (Nat.ne_of_gt h.nonempty) (by rw [hnew]; exact hsp) ?_ ?_) ?_
  · intro hacc b hb hpb
    rw [hold] at hb
    have hblt := h.lt_of_mem_children hb
    rw [get_alloc, if_neg (Nat.ne_of_lt hblt)] at hpb ⊢
    rw [hnew]
    exact hpkg (hnew ▸ hacc) b hb hpb
  · rw [hnew, hold]
    exact hspan
  · have hg := h.grounded.alloc hsp
    have hroot : (t.alloc s).1.Within p 0 := by
      obtain ⟨n, hn⟩ := h.rooted p hp
      exact ⟨n, by rw [climb_alloc t hsp]; exact hn⟩
    refine (hg.link hp' hc' (by rw [hnew]; exact hsp) hroot (Or.inl rfl) (Nat.ne_of_lt h.nonempty)).mono ?_
    rintro r ⟨hr | hr, hne⟩
    · exact hr
    · exact absurd hr hne

/-- Chains are read from parents alone, so a tree that keeps its size and parents keeps
where its chains end. -/
theorem Grounded.of_parents {t t' : SymbolTree} {top : Nat → Prop} (h : t.Grounded top)
    (hsize : t'.size = t.size) (hpar : ∀ i, (t'.get i).parent = (t.get i).parent) :
    t'.Grounded top := by
  intro i hi
  obtain ⟨r, hr, n, hn⟩ := h i (hsize ▸ hi)
  exact ⟨r, hr, n, by rw [climb_congr hpar]; exact hn⟩

theorem parent_modify {t : SymbolTree} {id : Nat} {f : Symbol → Symbol}
    (hf : (f (t.get id)).parent = (t.get id).parent) (i : Nat) :
    ((t.modify id f).get i).parent = (t.get i).parent := by
  by_cases hid : id < t.size
  · rw [get_modify f hid]
    split
    · subst i
      exact hf
    · rfl
  · rw [get_modify_of_size_le f (Nat.le_of_not_lt hid)]

/-- Changing a symbol without changing its shape keeps a tree shaped. -/
theorem Shaped.modify {t : SymbolTree} (h : t.Shaped) {id : Nat} {f : Symbol → Symbol}
    (hsame : (f (t.get id)).SameShape (t.get id))
    (hroot : id ≠ 0 ∨ (f (t.get id)).kind = (t.get id).kind) : (t.modify id f).Shaped :=
  Shaped.of_grounded (h.toLinked.modify hsame hroot)
    (h.grounded.of_parents (size_modify _ _ _) (parent_modify hsame.parent))

theorem Shaped.addImport {t : SymbolTree} (h : t.Shaped) (id : Nat) (r : ImportRule) :
    (t.addImport id r).Shaped := by
  unfold SymbolTree.addImport
  refine h.modify ?_ (Or.inr ?_) <;> split
  · exact Symbol.SameShape.refl _
  · exact ⟨rfl, rfl, rfl, rfl, rfl, rfl⟩
  · rfl
  · rfl

@[simp] theorem size_addImport (t : SymbolTree) (id : Nat) (r : ImportRule) :
    (t.addImport id r).size = t.size :=
  size_modify _ _ _

@[simp] theorem files_addImport (t : SymbolTree) (id : Nat) (r : ImportRule) :
    (t.addImport id r).files = t.files := rfl

/-- Recording an import changes nothing of any symbol's shape. -/
theorem addImport_sameShape (t : SymbolTree) (id : Nat) (r : ImportRule) (i : Nat) :
    ((t.addImport id r).get i).SameShape (t.get i) := by
  unfold SymbolTree.addImport
  by_cases hid : id < t.size
  · rw [get_modify _ hid]
    split
    · split
      · exact Symbol.SameShape.refl _
      · exact ⟨rfl, rfl, rfl, rfl, rfl, rfl⟩
    · exact Symbol.SameShape.refl _
  · rw [get_modify_of_size_le _ (Nat.le_of_not_lt hid)]
    exact Symbol.SameShape.refl _

theorem Shaped.addModifier {t : SymbolTree} (h : t.Shaped) (id : Nat) (m : Modifier) :
    (t.addModifier id m).Shaped :=
  h.modify ⟨rfl, rfl, rfl, rfl, rfl, rfl⟩ (Or.inr rfl)

/-! ### Files -/

@[simp] theorem addFile_snd (t : SymbolTree) (r : FileRecord) : (t.addFile r).2 = t.files.size :=
  rfl

@[simp] theorem get_addFile (t : SymbolTree) (r : FileRecord) (i : Nat) :
    (t.addFile r).1.get i = t.get i := rfl

@[simp] theorem size_addFile (t : SymbolTree) (r : FileRecord) : (t.addFile r).1.size = t.size :=
  rfl

@[simp] theorem files_addFile (t : SymbolTree) (r : FileRecord) :
    (t.addFile r).1.files = t.files.push r := rfl

/-- The next file index is one no symbol is located in yet. -/
theorem Linked.fileFresh {t : SymbolTree} (h : t.Linked) : t.FileFresh t.files.size :=
  fun i hi => Nat.lt_irrefl _ (h.file_lt i _ hi)

theorem Shaped.addFile {t : SymbolTree} (h : t.Shaped) (r : FileRecord) : (t.addFile r).1.Shaped :=
  { h with
    file_lt := fun i f hf => by
      rw [files_addFile, Array.size_push]
      exact Nat.lt_succ_of_lt (h.file_lt i f hf)
    rooted := fun i hi => by
      obtain ⟨n, hn⟩ := h.rooted i hi
      exact ⟨n, by rw [climb_congr fun j => congrArg Symbol.parent (get_addFile t r j)]; exact hn⟩ }

theorem Span.contains_self (s : Span) : s.contains s := by simp [Span.contains]

/-- Locating a symbol in a file no symbol is located in yet keeps a tree shaped: no span it
could escape or enclose lies in that file. -/
theorem Shaped.setLocation {t : SymbolTree} (h : t.Shaped) {id f : Nat} (sp : Span)
    (hfresh : t.FileFresh f) (hf : f < t.files.size) : (t.setLocation id f sp).Shaped := by
  unfold SymbolTree.setLocation
  set g : Symbol → Symbol := fun s =>
    if s.span.isNone then { s with file := some f, span := some sp } else s with hg
  have hkeep : ∀ s, (g s).parent = s.parent ∧ (g s).children = s.children ∧
      (g s).name = s.name ∧ (g s).kind = s.kind := by
    intro s
    simp only [hg]
    split <;> simp
  have hall : ∀ i, ((t.modify id g).get i).parent = (t.get i).parent ∧
      ((t.modify id g).get i).children = (t.get i).children ∧
      ((t.modify id g).get i).name = (t.get i).name ∧
      ((t.modify id g).get i).kind = (t.get i).kind ∧
      ((((t.modify id g).get i).file = (t.get i).file ∧
        ((t.modify id g).get i).span = (t.get i).span) ∨
        (((t.modify id g).get i).file = some f ∧ ((t.modify id g).get i).span = some sp)) := by
    intro i
    by_cases hid : id < t.size
    · rw [get_modify g hid]
      split
      · refine ⟨(hkeep _).1, (hkeep _).2.1, (hkeep _).2.2.1, (hkeep _).2.2.2, ?_⟩
        simp only [hg]
        split
        · exact Or.inr ⟨rfl, rfl⟩
        · exact Or.inl ⟨rfl, rfl⟩
      · exact ⟨rfl, rfl, rfl, rfl, Or.inl ⟨rfl, rfl⟩⟩
    · rw [get_modify_of_size_le g (Nat.le_of_not_lt hid)]
      exact ⟨rfl, rfl, rfl, rfl, Or.inl ⟨rfl, rfl⟩⟩
  refine Shaped.of_grounded ⟨by simpa using h.nonempty, ?_, ?_, fun p c => ?_, fun p => ?_,
    fun p a b ha hb hpa hpb hname => ?_, fun c p f' cs ps hcp hcf hpf hcs hps => ?_,
    fun i f' hf' => ?_⟩ (h.grounded.of_parents (size_modify _ _ _) fun i => (hall i).1)
  · rw [(hall 0).2.2.2.1]
    exact h.root_project
  · rw [(hall 0).1]
    exact h.root_parent
  · rw [(hall p).2.1, (hall c).1]
    exact h.mem_children p c
  · rw [(hall p).2.1]
    exact h.children_nodup p
  · rw [(hall p).2.1] at ha hb
    rw [(hall a).2.2.2.1] at hpa
    rw [(hall b).2.2.2.1] at hpb
    rw [(hall a).2.2.1, (hall b).2.2.1] at hname
    exact h.packages_distinct p a b ha hb hpa hpb hname
  · rw [(hall c).1] at hcp
    rcases (hall c).2.2.2.2 with ⟨hcf', hcs'⟩ | ⟨hcf', hcs'⟩ <;>
      rcases (hall p).2.2.2.2 with ⟨hpf', hps'⟩ | ⟨hpf', hps'⟩
    · rw [hcf'] at hcf
      rw [hpf'] at hpf
      rw [hcs'] at hcs
      rw [hps'] at hps
      exact h.span_within c p f' cs ps hcp hcf hpf hcs hps
    · rw [hcf'] at hcf
      rw [hpf'] at hpf
      cases hpf
      exact absurd hcf (hfresh c)
    · rw [hcf'] at hcf
      rw [hpf'] at hpf
      cases hcf
      exact absurd hpf (hfresh p)
    · rw [hcs'] at hcs
      rw [hps'] at hps
      obtain rfl := Option.some.inj hcs
      obtain rfl := Option.some.inj hps
      exact Span.contains_self _
  · rcases (hall i).2.2.2.2 with ⟨hif, -⟩ | ⟨hif, -⟩
    · rw [hif] at hf'
      exact h.file_lt i f' hf'
    · rw [hif] at hf'
      cases hf'
      exact hf

/-! ### Packages -/

/-- `packageChild` finds a package of the name among the children, or else finds none and
stores a new package below the parent. -/
theorem packageChild_cases (t : SymbolTree) (p : Nat) (name construct : String) :
    (∃ id ∈ (t.get p).children, t.packageChild p name construct = (t, id)) ∨
    ((∀ b ∈ (t.get p).children, SymbolClass.package.accepts (t.get b).kind →
        (t.get b).name ≠ name) ∧
      t.packageChild p name construct =
        ((t.alloc { name, kind := .package construct }).1.link p t.size, t.size)) := by
  simp only [SymbolTree.packageChild]
  split
  · rename_i id hfound
    exact Or.inl ⟨id, Array.mem_of_find?_eq_some hfound, rfl⟩
  · rename_i hnone
    refine Or.inr ⟨fun b hb hpb hname => ?_, rfl⟩
    have hnot := Array.find?_eq_none.1 hnone b hb
    simp only [hname, beq_self_eq_true, Bool.true_and] at hnot
    revert hpb hnot
    cases (t.get b).kind <;> simp [SymbolClass.accepts]

/-- What walking to a package scope leaves: a shaped tree with the same files, in which no
symbol is newly located and the scope found is stored. -/
structure ScopeFound (t t' : SymbolTree) (id : Nat) : Prop where
  shaped : t'.Shaped
  lt : id < t'.size
  files : t'.files = t.files
  fresh : ∀ f, t.FileFresh f → t'.FileFresh f

theorem ScopeFound.trans {t t' t'' : SymbolTree} {id id' : Nat} (h : ScopeFound t t' id)
    (h' : ScopeFound t' t'' id') : ScopeFound t t'' id' :=
  ⟨h'.shaped, h'.lt, h'.files.trans h.files, fun f hf => h'.fresh f (h.fresh f hf)⟩

theorem Shaped.packageChild {t : SymbolTree} (h : t.Shaped) {p : Nat} (hp : p < t.size)
    (name construct : String) :
    ScopeFound t (t.packageChild p name construct).1 (t.packageChild p name construct).2 := by
  rcases packageChild_cases t p name construct with ⟨id, hid, heq⟩ | ⟨hnew, heq⟩
  · rw [heq]
    exact ⟨h, h.lt_of_mem_children hid, rfl, fun f hf => hf⟩
  · rw [heq]
    refine ⟨h.attach hp rfl rfl (by simp) (fun _ b hb hpb => hnew b hb hpb) (by simp),
      by simp, rfl, fun f hf i => ?_⟩
    rw [get_link (by simp; omega) (by simp)]
    simp only
    rw [get_alloc]
    split
    · simp
    · exact hf i

theorem Shaped.packagePath {t : SymbolTree} (h : t.Shaped) {p : Nat} (hp : p < t.size)
    (names : List String) (construct : String) :
    ScopeFound t (t.packagePath p names construct).1 (t.packagePath p names construct).2 := by
  unfold SymbolTree.packagePath
  induction names generalizing t p with
  | nil => exact ⟨h, hp, rfl, fun f hf => hf⟩
  | cons name rest ih =>
    have hstep := h.packageChild hp name construct
    rw [List.foldl_cons]
    exact hstep.trans (ih hstep.shaped hstep.lt)

end SymbolTree

end Lineage
