import Lineage.Corpus
import Lineage.Proofs.Tree.Walk
import Lineage.Proofs.Scan.Java
import Lineage.Proofs.Scan.Python
import Lineage.Proofs.Hierarchy.Methods
/-!
Adding files to a corpus never fails and keeps every codebase shaped.

A corpus starts empty with a name and a language filter; files are added as text or as
bytes, and the filter may be changed between additions (`Corpus.Reachable`). Every scan of
a shaped tree succeeds and leaves it shaped (`Language.scan_shaped`), so every addition
succeeds and every codebase stays shaped (`Corpus.addFile_shaped`). The hierarchy of a
shaped tree is built and well formed (`hierarchy_wellFormed`).

* `Corpus.Reachable`: the corpora a program can build;
* `reachable_corpus_sound`: in every reachable corpus, every addition succeeds and every
  codebase is shaped with a hierarchy;
* `reachable_hierarchy_wellFormed`: the hierarchy of every codebase of a reachable corpus
  is well formed.
-/
namespace Lineage

open SymbolTree

theorem Language.scan_shaped (l : Language) {tree : SymbolTree} (h : tree.Shaped)
    (path content : String) : ∃ r, l.scan tree path content = .ok r ∧ r.1.Shaped := by
  cases l with
  | java => exact Java.scan_shaped h path content
  | python => exact Python.scan_shaped h path content

/-! ### Adding files -/

/-- Every codebase of the corpus has a shaped tree. -/
def Corpus.Shaped (c : Corpus) : Prop := ∀ cb ∈ c.codebases, cb.tree.Shaped

namespace Corpus

/-- A codebase read from a shaped corpus, or a shaped default past its end, is shaped. -/
theorem getD_shaped {cbs : Array Codebase} (h : ∀ cb ∈ cbs, cb.tree.Shaped) (i : Nat) (d : Codebase)
    (hd : d.tree.Shaped) : (cbs[i]?.getD d).tree.Shaped := by
  cases hi : cbs[i]? with
  | none => exact hd
  | some cb => exact h cb (Array.mem_of_getElem? hi)

/-- Replacing a shaped codebase by a shaped one keeps them shaped. -/
theorem shaped_setIfInBounds {cbs : Array Codebase} (h : ∀ cb ∈ cbs, cb.tree.Shaped) (i : Nat)
    {cb : Codebase} (hcb : cb.tree.Shaped) : ∀ x ∈ cbs.setIfInBounds i cb, x.tree.Shaped :=
  fun x hx => by
    rcases Array.mem_or_eq_of_mem_setIfInBounds hx with hx | rfl
    · exact h x hx
    · exact hcb

theorem addFile_shaped {c : Corpus} (h : c.Shaped) (path content : String) :
    ∃ b, (c.addFile path content).2 = .ok b ∧ (c.addFile path content).1.Shaped := by
  unfold Corpus.addFile
  split
  · exact ⟨false, rfl, h⟩
  · rename_i l _
    have hnew := shaped_new c.name l.id
    -- the codebase of the language: created at the end, or found
    rcases c.codebases.findIdx? (fun (cb : Codebase) => cb.language == l) with _ | i
    · dsimp only
      have h₁ : ∀ cb ∈ c.codebases.push ⟨l, SymbolTree.new c.name l.id, 0⟩, cb.tree.Shaped := by
        intro cb hcb
        rcases Array.mem_push.1 hcb with hcb | rfl
        · exact h cb hcb
        · exact hnew
      obtain ⟨⟨tree, file⟩, hscan, htree⟩ :=
        l.scan_shaped (getD_shaped h₁ c.codebases.size ⟨l, SymbolTree.new c.name l.id, 0⟩ hnew)
          path content
      rw [hscan]
      exact ⟨true, rfl, shaped_setIfInBounds h₁ _ htree⟩
    · dsimp only
      obtain ⟨⟨tree, file⟩, hscan, htree⟩ :=
        l.scan_shaped (getD_shaped h i ⟨l, SymbolTree.new c.name l.id, 0⟩ hnew) path content
      rw [hscan]
      exact ⟨true, rfl, shaped_setIfInBounds h _ htree⟩

theorem addBytes_shaped {c : Corpus} (h : c.Shaped) (path : String) (bytes : ByteArray) :
    ∃ b, (c.addBytes path bytes).2 = .ok b ∧ (c.addBytes path bytes).1.Shaped :=
  addFile_shaped h path (Utf8.decode bytes)

/-- The corpora a program can build: a new one with a name and a language filter, then
files added as text or as bytes, with the filter changed at any point. -/
inductive Reachable : Corpus → Prop
  | new (name : String) (languages : List String) : Reachable { name, languages }
  | addFile {c : Corpus} (path content : String) : Reachable c →
      Reachable (c.addFile path content).1
  | addBytes {c : Corpus} (path : String) (bytes : ByteArray) : Reachable c →
      Reachable (c.addBytes path bytes).1
  | filter {c : Corpus} (languages : List String) : Reachable c →
      Reachable { c with languages }

theorem Reachable.shaped {c : Corpus} (h : c.Reachable) : c.Shaped := by
  induction h with
  | new name languages => exact fun cb hcb => absurd hcb (Array.not_mem_empty cb)
  | addFile path content _ ih =>
    obtain ⟨_, _, h⟩ := addFile_shaped ih path content
    exact h
  | addBytes path bytes _ ih =>
    obtain ⟨_, _, h⟩ := addBytes_shaped ih path bytes
    exact h
  | filter languages _ ih => exact ih

end Corpus

/-- In every corpus a program can build, adding a file as text or as bytes succeeds, and
every codebase's tree is shaped: the root is a project without a parent, parents and
children agree without repeats, every symbol lies within the root, no scope has two
packages of one name, and spans nest within a file. Its hierarchy is always built. -/
theorem reachable_corpus_sound {c : Corpus} (hc : c.Reachable) :
    (∀ path content, ∃ b, (c.addFile path content).2 = .ok b) ∧
    (∀ path bytes, ∃ b, (c.addBytes path bytes).2 = .ok b) ∧
    ∀ cb ∈ c.codebases, cb.tree.Shaped ∧ ∃ hy, cb.hierarchy = .ok hy := by
  have h := hc.shaped
  refine ⟨fun path content => ?_, fun path bytes => ?_, fun cb hcb => ⟨h cb hcb, ?_⟩⟩
  · obtain ⟨b, hb, _⟩ := Corpus.addFile_shaped h path content
    exact ⟨b, hb⟩
  · obtain ⟨b, hb, _⟩ := Corpus.addBytes_shaped h path bytes
    exact ⟨b, hb⟩
  · obtain ⟨hy, hy_eq, -⟩ := hierarchy_wellFormed (h cb hcb)
    exact ⟨hy, hy_eq⟩

/-- A Java corpus holding one class takes any further file, and its codebase is shaped
with a hierarchy. -/
theorem java_corpus_sound :
    (∀ path content, ∃ b, (((Corpus.addFile { name := "shop", languages := ["java"] } "A.java"
      "class A {}").1).addFile path content).2 = .ok b) ∧
    (∀ path bytes, ∃ b, (((Corpus.addFile { name := "shop", languages := ["java"] } "A.java"
      "class A {}").1).addBytes path bytes).2 = .ok b) ∧
    ∀ cb ∈ (Corpus.addFile { name := "shop", languages := ["java"] } "A.java"
      "class A {}").1.codebases,
      cb.tree.Shaped ∧ ∃ hy, cb.hierarchy = .ok hy :=
  reachable_corpus_sound (.addFile _ _ (.new "shop" ["java"]))

/-- In every corpus a program can build, the hierarchy of every codebase is well formed:
parent and child edges agree, without repeats or self edges; the project nodes of the walk
over types come first, in its order, and the external nodes after them have no symbol,
parents or methods; no two nodes share a symbol and no two external nodes a name; and every
method is listed once, by its owner, in the order of the owner's members, standing for a
plain method of the owner's symbol with its non-implicit parameters in order. -/
theorem reachable_hierarchy_wellFormed {c : Corpus} (hc : c.Reachable) :
    ∀ cb ∈ c.codebases, ∃ h, cb.hierarchy = .ok h ∧ h.WellFormed cb.tree :=
  fun cb hcb => hierarchy_wellFormed (hc.shaped cb hcb)

/-- A Java corpus of a class, a subclass overriding its method, and a constructor: its
hierarchy is well formed. -/
theorem java_hierarchy_wellFormed :
    (Corpus.addFile { name := "shop", languages := ["java"] } "Shop.java"
      "class A { void f(int n) {} }\nclass B extends A { B() {} void f(int n) {} }").1.Reachable ∧
    ∀ cb ∈ (Corpus.addFile { name := "shop", languages := ["java"] } "Shop.java"
      "class A { void f(int n) {} }\nclass B extends A { B() {} void f(int n) {} }").1.codebases,
      ∃ h, cb.hierarchy = .ok h ∧ h.WellFormed cb.tree :=
  ⟨.addFile _ _ (.new "shop" ["java"]),
    reachable_hierarchy_wellFormed (.addFile _ _ (.new "shop" ["java"]))⟩

end Lineage
