import Lineage.Proofs.Scan.Placement
import Mathlib.Data.List.DropRight
/-!
The dotted names of top-level declarations.

A declaration at the top of its file lies, up to the file's own scope, directly in a package
scope, and which one is fixed by the file alone (`Language.scopeNames`): for Java the package
its text declares, the names of its first package declaration outside comments and literals,
or the root when it declares none; for Python its module path, the package itself for an
`__init__`. The file's record keeps those names (`FileRecord.scopeNames`); for Java it keeps
the dotted package, which splits back into the names read from the text
(`dottedParts_intercalate_declaredPackage`).

`SymbolTree.Placed` is what every tree of a corpus keeps: the nearest container that is no
file of each declaration is another declaration or the package scope its file's record
names. Every scan keeps it (`SymbolTree.Placed.scan`), and package scopes are found by their
names, so files with the same names share one scope (`SymbolTree.PackageAt.unique`).

* `top_level_names_by_file`: in every corpus a program can build, each declaration at the
  top of its file lies in the package scope its file names, and its dotted name is those
  names followed by its own.
-/
namespace Lineage

open SymbolTree

/-! ### Package names read back from a record -/

namespace Text

theorem toList_trim (s : String) :
    (trim s).toList = (s.toList.dropWhile isBlank).rdropWhile isBlank := by
  simp [trim, trimEnd, trimStart, List.rdropWhile]

/-- Trimming twice trims once. -/
theorem trim_trim (s : String) : trim (trim s) = trim s := by
  apply String.ext
  rw [toList_trim, toList_trim]
  set m := s.toList.dropWhile isBlank
  have hm : m.dropWhile isBlank = m := List.dropWhile_idempotent _ _
  -- what is left once trailing blanks go still starts where `m` does
  have hhead : (m.rdropWhile isBlank).dropWhile isBlank = m.rdropWhile isBlank := by
    rw [List.dropWhile_eq_self_iff] at hm ⊢
    intro hl
    rw [(List.rdropWhile_prefix isBlank m).getElem hl]
    exact hm (Nat.lt_of_lt_of_le hl (List.rdropWhile_prefix isBlank m).length_le)
  rw [hhead, List.rdropWhile_idempotent]

theorem mem_trim {s : String} {c : Char} (h : c ∈ (trim s).toList) : c ∈ s.toList := by
  rw [toList_trim] at h
  exact (List.dropWhile_suffix _).subset ((List.rdropWhile_prefix _ _).subset h)

end Text

/-- The parts of a list split at a separator hold elements of the list, and no separator. -/
theorem mem_splitAt {sep c : Char} :
    ∀ {l p : List Char}, p ∈ splitAt sep l → c ∈ p → c ∈ l ∧ c ≠ sep
  | [], p, hp, hc => by
    simp only [splitAt, List.mem_singleton] at hp
    subst hp
    cases hc
  | x :: xs, p, hp, hc => by
    rw [splitAt] at hp
    split at hp
    · rcases List.mem_cons.1 hp with rfl | hp
      · cases hc
      · obtain ⟨h₁, h₂⟩ := mem_splitAt hp hc
        exact ⟨.tail _ h₁, h₂⟩
    · rename_i hx
      split at hp
      · rw [List.mem_singleton] at hp
        subst hp
        rw [List.mem_singleton] at hc
        subst hc
        exact ⟨.head _, hx⟩
      · rename_i q qs hsplit
        rcases List.mem_cons.1 hp with rfl | hp
        · rcases List.mem_cons.1 hc with rfl | hc
          · exact ⟨.head _, hx⟩
          · obtain ⟨h₁, h₂⟩ := mem_splitAt (by rw [hsplit]; exact List.mem_cons_self) hc
            exact ⟨.tail _ h₁, h₂⟩
        · obtain ⟨h₁, h₂⟩ := mem_splitAt (by rw [hsplit]; exact List.mem_cons_of_mem _ hp) hc
          exact ⟨.tail _ h₁, h₂⟩

/-- Every part of a dotted name is a plain name. -/
theorem plainName_of_mem_dottedParts {text n : String} (h : n ∈ dottedParts text) :
    PlainName n := by
  unfold dottedParts at h
  obtain ⟨hmem, hne⟩ := List.mem_filter.1 h
  obtain ⟨p, hp, rfl⟩ := List.mem_map.1 hmem
  refine ⟨by simpa using hne, Text.trim_trim _, fun c hc => ?_⟩
  have hcp : c ∈ p := by simpa using Text.mem_trim hc
  obtain ⟨hhead, hdot⟩ := mem_splitAt hp hcp
  have hbr := List.mem_takeWhile_imp hhead
  simp only [Bool.and_eq_true, bne_iff_ne, ne_eq] at hbr
  exact ⟨hdot, hbr.1.1, hbr.1.2, hbr.2⟩

/-- The package a Java text declares, dotted, splits back into its names. -/
theorem dottedParts_intercalate_declaredPackage (content : String) :
    dottedParts (".".intercalate (Java.declaredPackage content)) = Java.declaredPackage content := by
  refine dottedParts_intercalate fun n hn => ?_
  -- the names are those of a dotted name, or none at all
  have key : ∀ (o : Option Match) (f : Match → List String),
      (∀ m, ∀ x ∈ f m, PlainName x) → ∀ x ∈ (o.map f).getD [], PlainName x := by
    intro o f hf x hx
    cases o with
    | none => cases hx
    | some m => exact hf m x hx
  exact key _ _ (fun _ _ hx => plainName_of_mem_dottedParts hx) n hn

/-! ### The scope a file names -/

/-- The names of the package scope a file's top-level declarations lie in, read off its
record: for Java the package it declares, for Python its module path. -/
def FileRecord.scopeNames (r : FileRecord) : Language → List String
  | .java => (r.package.map dottedParts).getD []
  | .python => (Python.ModulePath.ofPath r.path).names

/-- The names of the package scope a file's top-level declarations lie in, read off its path
and text. -/
def Language.scopeNames : Language → String → String → List String
  | .java, _, content => Java.declaredPackage content
  | .python, path, _ => (Python.ModulePath.ofPath path).names

theorem packageRecord_scopeNames (path content : String) :
    (Java.packageRecord path content (Java.declaredPackage content)).scopeNames .java =
      Java.declaredPackage content := by
  show ((Java.packageRecord path content _).package.map dottedParts).getD [] = _
  unfold Java.packageRecord
  dsimp only
  split
  · rename_i h
    rw [Option.map_none, Option.getD_none, List.isEmpty_iff.1 h]
  · rw [Option.map_some, Option.getD_some, dottedParts_intercalate_declaredPackage]

/-- A scan of a shaped tree succeeds and keeps the tree; it records the file with the scope
names read off its path and text, and the nearest container that is no file of every
declaration it adds is another declaration or the package scope of those names. -/
theorem Language.scan_placed (l : Language) {tree : SymbolTree} (h : tree.Shaped)
    (path content : String) :
    ∃ T r, l.scan tree path content = .ok (T, tree.files.size) ∧ T.Shaped ∧ tree.Keeps T ∧
      T.file? tree.files.size = some r ∧ r.path = path ∧
      r.scopeNames l = l.scopeNames path content ∧
      ∀ d, tree.size ≤ d → (T.get d).isDeclaration = true →
        (T.get d).file = some tree.files.size ∧ ∃ a, T.outerScope? d = some a ∧
          ((T.get a).isDeclaration = true ∨ T.PackageAt a (l.scopeNames path content)) := by
  cases l with
  | java =>
    obtain ⟨T, hscan, hT, hk, hr, hd⟩ := Java.scan_placed h path content
    exact ⟨T, _, hscan, hT, hk, hr, rfl, packageRecord_scopeNames path content, hd⟩
  | python =>
    obtain ⟨T, hscan, hT, hk, hr, hd⟩ := Python.scan_placed h path content
    exact ⟨T, _, hscan, hT, hk, hr, rfl, rfl, hd⟩

/-! ### Every tree of a corpus -/

/-- Every declaration located in a file lies, up to files, in another declaration or in the
package scope that its file's record names. -/
def SymbolTree.Placed (t : SymbolTree) (l : Language) : Prop :=
  ∀ d f, (t.get d).isDeclaration = true → (t.get d).file = some f →
    ∃ r a, t.file? f = some r ∧ t.outerScope? d = some a ∧
      ((t.get a).isDeclaration = true ∨ t.PackageAt a (r.scopeNames l))

/-- A new tree holds the project alone, and no declaration. -/
theorem placed_new (name language : String) (l : Language) :
    (SymbolTree.new name language).Placed l := by
  intro d f hd _
  rcases d with _ | d
  · simp [SymbolTree.new, SymbolTree.get, Symbol.isDeclaration] at hd
  · rw [get_of_size_le (by simp [SymbolTree.new, SymbolTree.size])] at hd
    cases hd

/-- Every scan of a shaped tree keeps it placed: old declarations keep their files and
scopes, and new ones lie in the scope the new file names. -/
theorem SymbolTree.Placed.scan {l : Language} {tree T : SymbolTree} (hp : tree.Placed l)
    (h : tree.Shaped) {path content : String} {f : Nat}
    (hscan : l.scan tree path content = .ok (T, f)) : T.Placed l := by
  obtain ⟨T', r, hscan', hT, hk, hr, -, hnames, hnew⟩ := l.scan_placed h path content
  rw [hscan'] at hscan
  cases hscan
  intro d f' hd hdf
  by_cases hold : d < tree.size
  · -- an old declaration keeps its file and its nearest container that is no file
    have hkd := hk.kept d hold
    rw [hkd.isDeclaration_eq] at hd
    obtain ⟨r', a, hr', ha, hcase⟩ := hp d f' hd (by rw [← hkd.file hd]; exact hdf)
    have hal := h.isTree.outerScope?_lt ha
    refine ⟨r', a, hk.files f' r' hr', by rw [hk.outerScope? h.isTree hT.isTree hold]; exact ha, ?_⟩
    rcases hcase with hdecl | hpkg
    · exact .inl (by rw [hk.isDeclaration_eq hal]; exact hdecl)
    · exact .inr (hk.packageAt hpkg)
  · obtain ⟨hdf', a, ha, hcase⟩ := hnew d (Nat.le_of_not_lt hold) hd
    rw [hdf] at hdf'
    obtain rfl := Option.some.inj hdf'
    exact ⟨r, a, hr, ha, by rw [hnames]; exact hcase⟩

namespace Corpus

/-- Every codebase of the corpus is placed for its language. -/
def Placed (c : Corpus) : Prop := ∀ cb ∈ c.codebases, cb.tree.Placed cb.language

theorem addFile_placed {c : Corpus} (hs : c.Shaped) (hp : c.Placed) (path content : String) :
    (c.addFile path content).1.Placed := by
  unfold Corpus.addFile
  split
  · exact hp
  · rename_i l _
    have hnew := shaped_new c.name l.id
    rcases hfind : c.codebases.findIdx? (fun (cb : Codebase) => cb.language == l) with _ | i
    · -- the codebase of the language is created last
      dsimp only
      rw [Array.getElem?_push_size, Option.getD_some]
      obtain ⟨⟨T, f⟩, hscan, -⟩ := l.scan_shaped hnew path content
      rw [hscan]
      intro cb hcb
      rcases Array.mem_or_eq_of_mem_setIfInBounds hcb with hcb | rfl
      · rcases Array.mem_push.1 hcb with hcb | rfl
        · exact hp cb hcb
        · exact placed_new c.name l.id l
      · exact (placed_new c.name l.id l).scan hnew hscan
    · -- the codebase of the language is found
      dsimp only
      obtain ⟨hi, hl, -⟩ := Array.findIdx?_eq_some_iff_getElem.1 hfind
      rw [Array.getElem?_eq_getElem hi, Option.getD_some]
      have hmem := Array.getElem_mem hi
      have hl' : c.codebases[i].language = l := by simpa using hl
      obtain ⟨⟨T, f⟩, hscan, -⟩ := l.scan_shaped (hs _ hmem) path content
      rw [hscan]
      intro cb hcb
      rcases Array.mem_or_eq_of_mem_setIfInBounds hcb with hcb | rfl
      · exact hp cb hcb
      · show T.Placed c.codebases[i].language
        rw [hl']
        exact (hl' ▸ hp _ hmem).scan (hs _ hmem) hscan

theorem Reachable.placed {c : Corpus} (h : c.Reachable) : c.Placed := by
  induction h with
  | new name languages => exact fun cb hcb => absurd hcb (Array.not_mem_empty cb)
  | addFile path content hr ih => exact addFile_placed hr.shaped ih path content
  | addBytes path bytes hr ih => exact addFile_placed hr.shaped ih path (Utf8.decode bytes)
  | filter languages _ ih => exact ih

end Corpus

theorem Symbol.inQualifiedName_of_isDeclaration {s : Symbol} (h : s.isDeclaration = true) :
    s.inQualifiedName = true := by
  revert h
  simp only [Symbol.isDeclaration, Symbol.inQualifiedName]
  cases s.kind <;> simp

/-- In every corpus a program can build, a declaration at the top of its file has a dotted
name fixed by the file alone. The nearest container that is no file of every declaration is
another declaration, or else the package scope that its file's record names, and then its
dotted name is those names followed by its own. A package scope is found by its names, so
the files whose records name the same scope share it. A scan records a file with names read
off its path and text alone: for Java the package its text declares, for Python its module
path. -/
theorem top_level_names_by_file {c : Corpus} (hc : c.Reachable) :
    (∀ cb ∈ c.codebases, ∀ d f, (cb.tree.get d).isDeclaration = true →
      (cb.tree.get d).file = some f → ∃ r a, cb.tree.file? f = some r ∧
        cb.tree.outerScope? d = some a ∧
        ((cb.tree.get a).isDeclaration = true ∨
          cb.tree.PackageAt a (r.scopeNames cb.language) ∧
            cb.tree.qualifiedName d =
              ".".intercalate (r.scopeNames cb.language ++ [(cb.tree.get d).name]))) ∧
    (∀ cb ∈ c.codebases, ∀ a b ns, cb.tree.PackageAt a ns → cb.tree.PackageAt b ns → a = b) ∧
    ∀ (l : Language) (tree : SymbolTree) (path content : String), tree.Shaped →
      ∃ T r, l.scan tree path content = .ok (T, tree.files.size) ∧
        T.file? tree.files.size = some r ∧ r.path = path ∧
        r.scopeNames l = l.scopeNames path content := by
  have hs := hc.shaped
  have hp := hc.placed
  refine ⟨fun cb hcb d f hd hdf => ?_, fun cb hcb a b ns ha hb => ha.unique (hs cb hcb).toLinked hb,
    fun l tree path content h => ?_⟩
  · obtain ⟨r, a, hr, ha, hcase⟩ := hp cb hcb d f hd hdf
    refine ⟨r, a, hr, ha, hcase.imp_right fun hpkg => ⟨hpkg, ?_⟩⟩
    have hT := (hs cb hcb).isTree
    rw [qualifiedName_eq_nameParts, hT.nameParts_of_outerScope ha, hT.nameParts_packageAt hpkg,
      if_pos (Symbol.inQualifiedName_of_isDeclaration hd)]
  · obtain ⟨T, r, hscan, -, -, hr, hpath, hnames, -⟩ := l.scan_placed h path content
    exact ⟨T, r, hscan, hr, hpath, hnames⟩

/-- A Java corpus holding a class of package `shop`: its top-level declarations lie in the
package scope `shop`, with dotted names that start with it. -/
theorem shop_top_level_names :
    (Corpus.addFile { name := "shop", languages := ["java"] } "Cart.java"
      "package shop;\nclass Cart {}").1.Reachable ∧
    (∀ cb ∈ (Corpus.addFile { name := "shop", languages := ["java"] } "Cart.java"
        "package shop;\nclass Cart {}").1.codebases,
      ∀ d f, (cb.tree.get d).isDeclaration = true →
      (cb.tree.get d).file = some f → ∃ r a, cb.tree.file? f = some r ∧
        cb.tree.outerScope? d = some a ∧
        ((cb.tree.get a).isDeclaration = true ∨
          cb.tree.PackageAt a (r.scopeNames cb.language) ∧
            cb.tree.qualifiedName d =
              ".".intercalate (r.scopeNames cb.language ++ [(cb.tree.get d).name]))) ∧
    (∀ cb ∈ (Corpus.addFile { name := "shop", languages := ["java"] } "Cart.java"
        "package shop;\nclass Cart {}").1.codebases,
      ∀ a b ns, cb.tree.PackageAt a ns → cb.tree.PackageAt b ns → a = b) ∧
    ∀ (l : Language) (tree : SymbolTree) (path content : String), tree.Shaped →
      ∃ T r, l.scan tree path content = .ok (T, tree.files.size) ∧
        T.file? tree.files.size = some r ∧ r.path = path ∧
        r.scopeNames l = l.scopeNames path content :=
  ⟨.addFile _ _ (.new "shop" ["java"]), top_level_names_by_file (.addFile _ _ (.new "shop" ["java"]))⟩

end Lineage
