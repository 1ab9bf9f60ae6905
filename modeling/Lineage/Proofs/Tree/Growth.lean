import Lineage.Proofs.Tree.Shape
/-!
What growing a tree keeps.

A scan only adds to a tree: it stores new symbols after the old ones, links new children
below old symbols, locates packages and modules that had no location yet, and records
imports. `SymbolTree.Keeps t t'` says what `t'` keeps of `t`: every old symbol with its name,
kind and parent (`Symbol.Kept`), the file of every old declaration, and every file record.
Each operation a scan makes keeps its tree so (`keeps_alloc`, `Keeps.modify`, `Keeps.link`,
`keeps_addImport`, `Keeps.setLocation`, `keeps_addFile`). Before its declarations, a scan
only adds scopes: `SymbolTree.AddsScopes` is `Keeps` with no new declaration.

Packages are found by their path of names from the root (`SymbolTree.PackageAt`). No scope
has two packages of one name, so no two packages have one path (`PackageAt.unique`); growing
a tree keeps every path (`Keeps.packageAt`), and finding a package by name below one with a
path gives the package with the longer path (`packageChild_packageAt`,
`packagePath_packageAt`).
-/
namespace Lineage

namespace Symbol

/-- Whether the symbol is a declaration read from a file: a type or a method. -/
def isDeclaration (s : Symbol) : Bool :=
  match s.kind with
  | .type _ | .method _ => true
  | _ => false

@[simp] theorem default_isDeclaration : (default : Symbol).isDeclaration = false := rfl

/-- What growing a tree keeps of a symbol: its name, kind and parent, and its file when it
is a declaration. -/
structure Kept (a b : Symbol) : Prop where
  name : b.name = a.name
  kind : b.kind = a.kind
  parent : b.parent = a.parent
  file : a.isDeclaration = true → b.file = a.file

theorem Kept.refl (a : Symbol) : a.Kept a := ⟨rfl, rfl, rfl, fun _ => rfl⟩

theorem Kept.isDeclaration_eq {a b : Symbol} (h : a.Kept b) : b.isDeclaration = a.isDeclaration := by
  simp only [isDeclaration, h.kind]

theorem Kept.trans {a b c : Symbol} (hab : a.Kept b) (hbc : b.Kept c) : a.Kept c :=
  ⟨hbc.name.trans hab.name, hbc.kind.trans hab.kind, hbc.parent.trans hab.parent,
    fun ha => (hbc.file (hab.isDeclaration_eq.trans ha)).trans (hab.file ha)⟩

end Symbol

namespace SymbolTree

/-- What `t'` keeps of `t`: every symbol of `t`, `Kept`, and every file record. -/
structure Keeps (t t' : SymbolTree) : Prop where
  size_le : t.size ≤ t'.size
  kept : ∀ x < t.size, (t.get x).Kept (t'.get x)
  files : ∀ f r, t.file? f = some r → t'.file? f = some r

variable {t t' t'' : SymbolTree}

/-- No symbol past the end of a tree is a declaration. -/
theorem isDeclaration_of_size_le {i : Nat} (hi : t.size ≤ i) : (t.get i).isDeclaration = false := by
  rw [get_of_size_le hi]
  rfl

/-- So every declaration of a tree is stored in it. -/
theorem lt_size_of_isDeclaration {i : Nat} (h : (t.get i).isDeclaration = true) : i < t.size :=
  Nat.lt_of_not_le fun hi => by
    rw [isDeclaration_of_size_le hi] at h
    cases h

theorem Keeps.refl (t : SymbolTree) : t.Keeps t :=
  ⟨Nat.le_refl _, fun _ _ => Symbol.Kept.refl _, fun _ _ h => h⟩

theorem Keeps.trans (h : t.Keeps t') (h' : t'.Keeps t'') : t.Keeps t'' :=
  ⟨Nat.le_trans h.size_le h'.size_le,
    fun x hx => (h.kept x hx).trans (h'.kept x (Nat.lt_of_lt_of_le hx h.size_le)),
    fun f r hf => h'.files f r (h.files f r hf)⟩

theorem Keeps.isDeclaration_eq (h : t.Keeps t') {x : Nat} (hx : x < t.size) :
    (t'.get x).isDeclaration = (t.get x).isDeclaration :=
  (h.kept x hx).isDeclaration_eq

theorem keeps_alloc (t : SymbolTree) (s : Symbol) : t.Keeps (t.alloc s).1 := by
  refine ⟨by simp, fun x hx => ?_, fun _ _ h => h⟩
  rw [get_alloc, if_neg (Nat.ne_of_lt hx)]
  exact Symbol.Kept.refl _

theorem keeps_addFile (t : SymbolTree) (r : FileRecord) : t.Keeps (t.addFile r).1 := by
  refine ⟨Nat.le_refl _, fun _ _ => Symbol.Kept.refl _, fun f r' hf => ?_⟩
  simp only [file?, files_addFile, Array.getElem?_push] at hf ⊢
  rw [if_neg]
  · exact hf
  · rintro rfl
    simp at hf

/-- Changing a symbol keeps a tree when the change keeps an old symbol. -/
theorem Keeps.modify (h : t.Keeps t') {id : Nat} {f : Symbol → Symbol}
    (hf : id < t.size → (t'.get id).Kept (f (t'.get id))) : t.Keeps (t'.modify id f) := by
  refine ⟨by simpa using h.size_le, fun x hx => ?_, h.files⟩
  by_cases hid : id < t'.size
  · rw [get_modify f hid]
    split
    · subst x
      exact (h.kept id hx).trans (hf hx)
    · exact h.kept x hx
  · rw [get_modify_of_size_le f (Nat.le_of_not_lt hid)]
    exact h.kept x hx

/-- Linking a new child keeps a tree: the parent only gains a child. -/
theorem Keeps.link (h : t.Keeps t') {p c : Nat} (hc : t.size ≤ c) : t.Keeps (t'.link p c) := by
  unfold SymbolTree.link
  exact (h.modify fun hlt => absurd hlt (Nat.not_lt_of_le hc)).modify fun _ =>
    ⟨rfl, rfl, rfl, fun _ => rfl⟩

theorem keeps_addImport (t : SymbolTree) (id : Nat) (r : ImportRule) :
    t.Keeps (t.addImport id r) := by
  unfold SymbolTree.addImport
  refine (Keeps.refl t).modify fun _ => ?_
  split
  · exact Symbol.Kept.refl _
  · exact ⟨rfl, rfl, rfl, fun _ => rfl⟩

/-- Steps that each keep a tree keep it over a whole fold. -/
theorem keeps_foldl {α : Type} (xs : List α) (step : SymbolTree → α → SymbolTree)
    (hstep : ∀ (t : SymbolTree) (a : α), t.Keeps (step t a)) (t : SymbolTree) :
    t.Keeps (xs.foldl step t) := by
  induction xs generalizing t with
  | nil => exact Keeps.refl t
  | cons a xs ih => exact (hstep t a).trans (ih (step t a))

/-- Locating a symbol that is no declaration keeps a tree. -/
theorem Keeps.setLocation (h : t.Keeps t') {id f : Nat} (sp : Span)
    (hid : (t'.get id).isDeclaration = false) : t.Keeps (t'.setLocation id f sp) := by
  unfold SymbolTree.setLocation
  refine h.modify fun _ => ?_
  split
  · exact ⟨rfl, rfl, rfl, fun hd => by rw [hid] at hd; cases hd⟩
  · exact Symbol.Kept.refl _

/-! ### Adding scopes -/

/-- `t'` keeps `t` and holds no declaration past it: what finding packages and storing a
file's scope do. -/
structure AddsScopes (t t' : SymbolTree) : Prop extends t.Keeps t' where
  scopes : ∀ i, t.size ≤ i → (t'.get i).isDeclaration = false

theorem AddsScopes.refl (t : SymbolTree) : t.AddsScopes t :=
  ⟨Keeps.refl t, fun _ => isDeclaration_of_size_le⟩

theorem AddsScopes.trans (h : t.AddsScopes t') (h' : t'.AddsScopes t'') : t.AddsScopes t'' := by
  refine ⟨h.toKeeps.trans h'.toKeeps, fun i hi => ?_⟩
  by_cases hi' : i < t'.size
  · rw [h'.isDeclaration_eq hi']
    exact h.scopes i hi
  · exact h'.scopes i (Nat.le_of_not_lt hi')

/-- Once a tree holds no declaration past `t`, keeping it adds none before its end. -/
theorem AddsScopes.of_keeps (h : t.AddsScopes t') (h' : t'.Keeps t'')
    (hnew : ∀ i, t'.size ≤ i → (t''.get i).isDeclaration = false) : t.AddsScopes t'' :=
  h.trans ⟨h', hnew⟩

theorem addsScopes_addFile (t : SymbolTree) (r : FileRecord) : t.AddsScopes (t.addFile r).1 :=
  ⟨keeps_addFile t r, fun _ hi => isDeclaration_of_size_le hi⟩

/-- A declaration that a tree keeping `t'` holds past `t` lies past `t'` too, when `t'` only
adds scopes to `t`. -/
theorem AddsScopes.le_of_isDeclaration (h : t.AddsScopes t') (h' : t'.Keeps t'') {d : Nat}
    (hd : t.size ≤ d) (hdd : (t''.get d).isDeclaration = true) : t'.size ≤ d :=
  Nat.le_of_not_lt fun hlt => by
    rw [h'.isDeclaration_eq hlt, h.scopes d hd] at hdd
    cases hdd

/-- Locating a symbol that is no declaration adds no declaration. -/
theorem AddsScopes.setLocation (h : t.AddsScopes t') {id f : Nat} (sp : Span)
    (hid : (t'.get id).isDeclaration = false) : t.AddsScopes (t'.setLocation id f sp) :=
  h.of_keeps ((Keeps.refl t').setLocation sp hid) fun i hi => by
    rw [get_of_size_le (by unfold SymbolTree.setLocation; simpa using hi)]
    rfl

/-! ### Package paths -/

/-- `a` is the package scope with path `ns`: the root has the empty path, and a package
whose parent has a path extends it by its own name. -/
inductive PackageAt (t : SymbolTree) : Nat → List String → Prop
  | root : PackageAt t 0 []
  | child {p a : Nat} {ns : List String} : PackageAt t p ns → (t.get a).parent = some p →
      SymbolClass.package.accepts (t.get a).kind = true → PackageAt t a (ns ++ [(t.get a).name])

theorem PackageAt.cases_eq {a : Nat} {ns : List String} (h : t.PackageAt a ns) :
    (a = 0 ∧ ns = []) ∨ ∃ p ns', t.PackageAt p ns' ∧ (t.get a).parent = some p ∧
      SymbolClass.package.accepts (t.get a).kind = true ∧ ns = ns' ++ [(t.get a).name] := by
  cases h with
  | root => exact .inl ⟨rfl, rfl⟩
  | child hp hpar hpkg => exact .inr ⟨_, _, hp, hpar, hpkg, rfl⟩

theorem PackageAt.lt (hn : 0 < t.size) {a : Nat} {ns : List String} (h : t.PackageAt a ns) :
    a < t.size := by
  cases h with
  | root => exact hn
  | child _ hpar _ => exact Linked.lt_of_parent hpar

/-- A package scope is the root project or a package: no declaration and no file. -/
theorem PackageAt.scope (h : t.Linked) {a : Nat} {ns : List String} (ha : t.PackageAt a ns) :
    (t.get a).isDeclaration = false ∧ (t.get a).isTransparent = false := by
  simp only [Symbol.isDeclaration, Symbol.isTransparent]
  cases ha with
  | root =>
    obtain ⟨l, hl⟩ := h.root_project
    simp [hl]
  | child _ _ hpkg =>
    revert hpkg
    cases (t.get a).kind <;> simp [SymbolClass.accepts]

/-- Growing a tree keeps every package path. -/
theorem Keeps.packageAt (h : t.Keeps t') {a : Nat} {ns : List String} (ha : t.PackageAt a ns) :
    t'.PackageAt a ns := by
  induction ha with
  | root => exact .root
  | child _ hpar hpkg ih =>
    have hk := h.kept _ (Linked.lt_of_parent hpar)
    rw [← hk.name]
    exact .child ih (hk.parent.trans hpar) (by rw [hk.kind]; exact hpkg)

/-- In a linked tree no two packages have one path: no scope has two packages of one
name. -/
theorem PackageAt.unique (h : t.Linked) {a b : Nat} {ns : List String} (ha : t.PackageAt a ns)
    (hb : t.PackageAt b ns) : a = b := by
  induction ha generalizing b with
  | root =>
    rcases hb.cases_eq with ⟨rfl, -⟩ | ⟨_, _, _, _, _, hns⟩
    · rfl
    · simp at hns
  | child _ hpar hpkg ih =>
    rcases hb.cases_eq with ⟨-, hns⟩ | ⟨q, ns', hq, hqpar, hqpkg, hns⟩
    · simp at hns
    · obtain ⟨rfl, hname⟩ := List.append_inj' hns rfl
      obtain rfl := ih hq
      exact h.packages_distinct _ _ _ ((h.mem_children _ _).2 hpar) ((h.mem_children _ _).2 hqpar)
        hpkg hqpkg (List.singleton_inj.1 hname)

/-- Finding or creating package `name` below a package scope with path `ns` gives a package
scope with path `ns ++ [name]`, and adds scopes only. -/
theorem packageChild_packageAt (h : t.Linked) {p : Nat} {ns : List String}
    (hp : t.PackageAt p ns) (hpl : p < t.size) (name construct : String) :
    t.AddsScopes (t.packageChild p name construct).1 ∧
      (t.packageChild p name construct).1.PackageAt (t.packageChild p name construct).2
        (ns ++ [name]) := by
  simp only [SymbolTree.packageChild]
  split
  · -- a package of the name is already there
    rename_i id hfound
    have hsel := Array.find?_some hfound
    simp only [Bool.and_eq_true, beq_iff_eq] at hsel
    obtain ⟨hname, hpkg⟩ := hsel
    refine ⟨AddsScopes.refl t, ?_⟩
    rw [← hname]
    refine .child hp ((h.mem_children p id).1 (Array.mem_of_find?_eq_some hfound)) ?_
    revert hpkg
    cases (t.get id).kind <;> simp [SymbolClass.accepts]
  · -- a new package, stored last and linked below `p`
    simp only [alloc_snd]
    have hk : t.Keeps ((t.alloc { name, kind := .package construct }).1.link p t.size) :=
      (keeps_alloc t _).link (Nat.le_refl _)
    have hget := get_link (t := (t.alloc { name, kind := .package construct }).1) (p := p)
      (c := t.size) (by simpa using Nat.lt_succ_of_lt hpl) (by simp) t.size
    rw [get_alloc, if_pos rfl] at hget
    refine ⟨⟨hk, fun i hi => ?_⟩, ?_⟩
    · rcases Nat.lt_or_ge i (t.size + 1) with hlt | hge
      · obtain rfl : i = t.size := by omega
        rw [hget]
        rfl
      · rw [get_of_size_le (by simpa using hge)]
        rfl
    · have hnew := PackageAt.child (t := (t.alloc { name, kind := .package construct }).1.link p t.size)
        (hk.packageAt hp) (by rw [hget]; simp) (by rw [hget]; rfl)
      rwa [hget] at hnew

/-- Walking a path of names from a package scope gives the package scope with the longer
path, and adds scopes only. -/
theorem packagePath_packageAt (h : t.Shaped) {p : Nat} {ns : List String}
    (hp : t.PackageAt p ns) (hpl : p < t.size) (names : List String) (construct : String) :
    t.AddsScopes (t.packagePath p names construct).1 ∧
      (t.packagePath p names construct).1.PackageAt (t.packagePath p names construct).2
        (ns ++ names) := by
  unfold SymbolTree.packagePath
  induction names generalizing t p ns with
  | nil => exact ⟨AddsScopes.refl t, by simpa using hp⟩
  | cons name rest ih =>
    have hfound := h.packageChild hpl name construct
    obtain ⟨hadds, hat⟩ := packageChild_packageAt h.toLinked hp hpl name construct
    rw [List.foldl_cons]
    obtain ⟨hadds', hat'⟩ := ih hfound.shaped hat hfound.lt
    refine ⟨hadds.trans hadds', ?_⟩
    simpa using hat'

end SymbolTree

end Lineage
