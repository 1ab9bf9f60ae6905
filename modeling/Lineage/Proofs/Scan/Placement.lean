import Lineage.Proofs.Tree.Qualified
import Lineage.Proofs.Scan.Widening
import Lineage.Proofs.Scan.Python
/-!
Where a scan places the declarations it records.

A scan first adds scopes only: the file's package, found or created along its path of names,
and for Java a file scope below it (`Java.scan_start_placed`, `Python.scan_run_placed`). Its
declarations come after everything that was there, each located in the file and nested below
another of them or below the file's own scope: the file scope for Java, the module the file
fills for Python. `Java.Placing` and `Python.Placing` are what the two declaration loops keep
of that, and the tree the loop starts from is kept throughout.

* `Java.scan_placed`, `Python.scan_placed`: a scan keeps the tree it scans into and records
  the file; the nearest container that is no file of every declaration it adds is another
  declaration or the package scope of the package the text declares (Java) or of the file's
  module path (Python).
-/
namespace Lineage

open SymbolTree

theorem Symbol.isTransparent_of_isDeclaration {s : Symbol} (h : s.isDeclaration = true) :
    s.isTransparent = false := by
  revert h
  simp only [Symbol.isDeclaration, Symbol.isTransparent]
  cases s.kind <;> simp

theorem Symbol.SameDecl.isDeclaration_eq {a b : Symbol} (h : a.SameDecl b) :
    a.isDeclaration = b.isDeclaration := by
  simp only [Symbol.isDeclaration, h.kind]

namespace Java

/-- Widening leaves a declaration a declaration, and anything else none. -/
theorem widenMember_isDeclaration {tree : SymbolTree} {m : Nat} (hm : m < tree.size)
    (construct : Option String) (tn : String) :
    ((widenMember tree m construct tn).get m).isDeclaration = (tree.get m).isDeclaration := by
  cases construct with
  | none => rfl
  | some c =>
    by_cases hmeth : ∃ info, (tree.get m).kind = .method info
    · obtain ⟨info, hk⟩ := hmeth
      simp only [Symbol.isDeclaration, widenMember_kind_method hm hk, hk]
    · simp only [not_exists] at hmeth
      simp only [Symbol.isDeclaration, widenMember_kind_of_not_method hm hmeth]

/-- What the declaration loop keeps of the tree `T₀` it starts from, for the file `file`: the
tree keeps `T₀`, and each symbol past `T₀` is a declaration located in the file whose parent,
if it has one, lies past `T₀` too. -/
structure Placing (T₀ : SymbolTree) (file : Nat) (t : SymbolTree) : Prop where
  keeps : T₀.Keeps t
  decl : ∀ x, T₀.size ≤ x → x < t.size →
    (t.get x).isDeclaration = true ∧ (t.get x).file = some file
  parent : ∀ x q, T₀.size ≤ x → (t.get x).parent = some q → T₀.size ≤ q

/-- Nothing is placed where the loop starts. -/
theorem Placing.start (T₀ : SymbolTree) (file : Nat) : Placing T₀ file T₀ where
  keeps := Keeps.refl T₀
  decl _ hx hlt := absurd hlt (Nat.not_lt_of_le hx)
  parent x q hx hq := by
    rw [get_of_size_le hx] at hq
    cases hq

/-- Recording a declaration keeps `Placing`: the new one is a declaration in the file without
a parent, and those it adopts were waiting, so they lie past the tree the loop started
from. -/
theorem Placing.insert {n scope : Nat} {T₀ : SymbolTree} {st st' : FileScan}
    (hT₀ : T₀.size = scope + 1) (hp : Pending n scope st) (hpl : Placing T₀ st.file st.tree)
    (d : Decl) (hins : Java.insert st d = .ok st') :
    st'.file = st.file ∧ Placing T₀ st.file st'.tree := by
  obtain ⟨s, anon, heq, hsp, hsc, hsf, hss, -, -, -, -, hsd, -⟩ := insert_decl st d
  have ha := hp.adoptable hss anon
  have hlinked : (st.tree.alloc s).1.Linked := hp.linked.alloc hsp hsc fun f hf => by
    rw [hsf] at hf
    cases hf
    exact hp.file_lt
  obtain ⟨t', hfold, hadopt⟩ := adopt_fold hlinked (by simp) ha d.keyword
    ((st.tree.alloc s).1.get st.tree.size).name
  obtain ⟨top, hok, -⟩ := @adoptMembers_ok { st with tree := (st.tree.alloc s).1, anonymous := anon }
    st.tree.size d.span d.keyword t' hfold
  rw [heq, hok] at hins
  cases hins
  have hdecl := adopt_fold_decl hlinked (by simp) ha d.keyword _ hfold
  set A := adoptees { st with tree := (st.tree.alloc s).1, anonymous := anon } d.span with hA
  -- the adopted declarations were waiting, so they lie past `T₀`
  have hnewA : ∀ i ∈ A, T₀.size ≤ i := fun i hi => by
    have := (hp.waiting i ((adoptees_sublist
      { st with tree := (st.tree.alloc s).1, anonymous := anon } d.span).subset hi)).after
    omega
  have hsize : T₀.size ≤ st.tree.size := hpl.keeps.size_le
  refine ⟨rfl, ⟨⟨?_, fun x hx => ?_, fun f r hf => ?_⟩, fun x hx hlt => ?_, fun x q hx hq => ?_⟩⟩
  · rw [hadopt.size, size_alloc]
    omega
  · -- an old symbol is neither the new declaration nor adopted
    have hxA : x ∉ A := fun h => Nat.lt_irrefl _ (Nat.lt_of_lt_of_le hx (hnewA x h))
    have hold : (st.tree.alloc s).1.get x = st.tree.get x := by
      rw [get_alloc, if_neg (Nat.ne_of_lt (Nat.lt_of_lt_of_le hx hsize))]
    have hs := hdecl x
    rw [if_neg hxA, hold] at hs
    refine (hpl.keeps.kept x hx).trans ⟨hs.name, hs.kind, ?_, fun _ => ?_⟩
    · rw [hadopt.parent, if_neg hxA, hold]
    · rw [(hadopt.place x).file, hold]
  · unfold SymbolTree.file?
    rw [hadopt.files, files_alloc]
    exact hpl.keeps.files f r hf
  · have hx' : x < st.tree.size + 1 := by rwa [hadopt.size, size_alloc] at hlt
    have hdecl' : (t'.get x).isDeclaration = ((st.tree.alloc s).1.get x).isDeclaration := by
      rw [(hdecl x).isDeclaration_eq]
      split
      · exact widenMember_isDeclaration (by simpa using hx') _ _
      · rfl
    rw [hdecl', (hadopt.place x).file, get_alloc]
    split
    · exact ⟨hsd, hsf⟩
    · exact hpl.decl x hx (by omega)
  · rw [hadopt.parent] at hq
    split at hq
    · cases hq
      exact hsize
    · rw [get_alloc] at hq
      split at hq
      · rw [hsp] at hq
        cases hq
      · exact hpl.parent x q hx hq

/-- The declaration loop keeps `Placing`, and the file it scans. -/
theorem Placing.declarations {n scope : Nat} {T₀ : SymbolTree} (hT₀ : T₀.size = scope + 1)
    (fuel : Nat) (t : Overlay) (st : FileScan) (ht : t.size = n) (hp : Pending n scope st)
    (hpl : Placing T₀ st.file st.tree) :
    ∃ st', Java.declarations fuel t st = .ok st' ∧ Pending n scope st' ∧ st'.file = st.file ∧
      Placing T₀ st.file st'.tree := by
  obtain ⟨st', hrun, hp', hfile, hpl'⟩ := Pending.declarations_induction
    (fun st' => st'.file = st.file ∧ Placing T₀ st.file st'.tree)
    (fun s s' d hs hP hins => by
      obtain ⟨hf, hP⟩ := hP
      rw [← hf] at hP ⊢
      exact Placing.insert hT₀ hs hP d hins)
    fuel t st ht hp ⟨rfl, hpl⟩
  exact ⟨st', hrun, hp', hfile, hpl'⟩

/-- The file's scope adopting the declarations left waiting keeps the tree the loop started
from: every declaration past it now hangs below the scope or below another of them. -/
theorem Placing.finish {n scope : Nat} {T₀ : SymbolTree} {st : FileScan}
    (hT₀ : T₀.size = scope + 1) (hp : Pending n scope st) (hpl : Placing T₀ st.file st.tree) :
    ∃ T, st.topLevel.foldlM (fun tree (x : Nat × Nat) => tree.nest scope x.2) st.tree = .ok T ∧
      T₀.Keeps T ∧ ∀ x, T₀.size ≤ x → x < T.size →
        (T.get x).isDeclaration = true ∧ (T.get x).file = some st.file ∧
        ∀ q, (T.get x).parent = some q → q = scope ∨ T₀.size ≤ q := by
  have ha := hp.adoptable_scope
  obtain ⟨T, hfold, hadopt⟩ := adopt_fold hp.linked hp.scope_lt ha none ""
  have hdecl := adopt_fold_decl hp.linked hp.scope_lt ha none "" hfold
  rw [FileScan.waiting, List.foldlM_map] at hfold
  -- adopting with no keyword widens nothing
  have hsame : ∀ i, (T.get i).SameDecl (st.tree.get i) := fun i => by
    have := hdecl i
    split at this <;> exact this
  have hwait : ∀ w ∈ st.waiting, T₀.size ≤ w := fun w hw => by
    have := (hp.waiting w hw).after
    omega
  refine ⟨T, hfold, ⟨?_, fun x hx => ?_, fun f r hf => ?_⟩, fun x hx hlt => ?_⟩
  · rw [hadopt.size]
    exact hpl.keeps.size_le
  · have hxw : x ∉ st.waiting := fun h => Nat.lt_irrefl _ (Nat.lt_of_lt_of_le hx (hwait x h))
    refine (hpl.keeps.kept x hx).trans
      ⟨(hsame x).name, (hsame x).kind, ?_, fun _ => (hadopt.place x).file⟩
    rw [hadopt.parent, if_neg hxw]
  · unfold SymbolTree.file?
    rw [hadopt.files]
    exact hpl.keeps.files f r hf
  · rw [hadopt.size] at hlt
    obtain ⟨hd, hf⟩ := hpl.decl x hx hlt
    refine ⟨(hsame x).isDeclaration_eq.trans hd, (hadopt.place x).file.trans hf, fun q hq => ?_⟩
    rw [hadopt.parent] at hq
    split at hq
    · exact .inl (Option.some.inj hq).symm
    · exact .inr (hpl.parent x q hx hq)

/-- A scan of a Java text into a shaped tree succeeds and keeps the tree; it records the file
with the package the text declares, and the nearest container that is no file of every
declaration it adds is another declaration or the package scope of that package. -/
theorem scan_placed {tree : SymbolTree} (h : tree.Shaped) (path content : String) :
    ∃ T, Java.scan tree path content = .ok (T, tree.files.size) ∧ T.Shaped ∧ tree.Keeps T ∧
      T.file? tree.files.size = some (packageRecord path content (declaredPackage content)) ∧
      ∀ d, tree.size ≤ d → (T.get d).isDeclaration = true →
        (T.get d).file = some tree.files.size ∧ ∃ a, T.outerScope? d = some a ∧
          ((T.get a).isDeclaration = true ∨ T.PackageAt a (declaredPackage content)) := by
  obtain ⟨T₀, t, scope, hs, hplaced, heq⟩ := scan_start_placed h path content
  obtain ⟨st, hdecl, hst, hfile, hpl⟩ :=
    Placing.declarations hs.size (t.size + 1) t _ rfl (hs.pending path) (Placing.start T₀ _)
  rw [← hfile] at hpl
  obtain ⟨T, hfold, hkeep, hnew⟩ := Placing.finish hs.size hst hpl
  obtain ⟨T', hfold', hT'⟩ := hst.finish
  obtain rfl : T' = T := by
    rw [hfold] at hfold'
    cases hfold'
    rfl
  have hT := hT'.isTree
  obtain ⟨P, hP, hPat⟩ := hplaced.package
  refine ⟨T', ?_, hT', hplaced.adds.toKeeps.trans hkeep, ?_, fun d hd hdd => ?_⟩
  · rw [heq]
    exact bind_adopt_ok _ hdecl hfold
  · apply hkeep.files
    simp [SymbolTree.file?, hplaced.files]
  · -- up to the file's scope, the scan adds scopes only
    have hd₀ := hplaced.adds.le_of_isDeclaration hkeep hd hdd
    have hdT := lt_size_of_isDeclaration hdd
    obtain ⟨-, hdf, hdpar⟩ := hnew d hd₀ hdT
    refine ⟨hdf.trans (congrArg some hfile), ?_⟩
    obtain ⟨q, hq⟩ := hT.exists_parent hdT (by rw [hs.size] at hd₀; omega)
    rcases hdpar q hq with rfl | hqnew
    · -- below the file's scope, a file whose parent is the package scope
      have hkq := hkeep.kept q (by rw [hs.size]; omega)
      have hfileq : (T'.get q).isTransparent = true := by
        simp [Symbol.isTransparent, hkq.kind, hs.kind]
      have hPT := hkeep.packageAt hPat
      refine ⟨P, ?_, .inr hPT⟩
      rw [hT.outerScope?_of_parent hq, if_pos hfileq]
      exact hT.outerScope?_of_parent_opaque (hkq.parent.trans hP) (hPT.scope hT'.toLinked).2
    · -- below another declaration the scan added
      have hqd := (hnew q hqnew (hT.parent_lt hq)).1
      exact ⟨q, hT.outerScope?_of_parent_opaque hq (Symbol.isTransparent_of_isDeclaration hqd),
        .inl hqd⟩

end Java

namespace Python

/-- The names of a module path: its package's, then the module's unless the file is its
package's `__init__`. -/
def ModulePath.names (loc : ModulePath) : List String := loc.package ++ loc.module.toList

/-- Finding or creating the scope a file fills adds scopes only, and gives the package scope
of the file's module path. -/
theorem scope_packageAt {t : SymbolTree} (h : t.Shaped) (loc : ModulePath) :
    t.AddsScopes (loc.scope t).1 ∧ (loc.scope t).1.PackageAt (loc.scope t).2 loc.names := by
  have hpath := h.packagePath h.nonempty loc.package "package"
  obtain ⟨hadds, hat⟩ := packagePath_packageAt h .root h.nonempty loc.package "package"
  rw [List.nil_append] at hat
  unfold ModulePath.scope ModulePath.names
  cases loc.module with
  | none =>
    rw [Option.toList_none, List.append_nil]
    exact ⟨hadds, hat⟩
  | some m =>
    obtain ⟨hadds', hat'⟩ := packageChild_packageAt hpath.shaped.toLinked hat hpath.lt m "module"
    rw [Option.toList_some]
    exact ⟨hadds.trans hadds', hat'⟩

/-- What the header loop keeps of the tree `T₀` it starts from, for the file `file` filling
`module`: the tree keeps `T₀`; each symbol past `T₀` is a declaration located in the file
whose parent, if it has one, is the module or lies past `T₀`; and so is each open scope. -/
structure Placing (T₀ : SymbolTree) (module f : Nat) (st : ModuleScan) : Prop where
  file : st.file = f
  keeps : T₀.Keeps st.tree
  decl : ∀ x, T₀.size ≤ x → x < st.tree.size →
    (st.tree.get x).isDeclaration = true ∧ (st.tree.get x).file = some f
  parent : ∀ x q, T₀.size ≤ x → (st.tree.get x).parent = some q → q = module ∨ T₀.size ≤ q
  enclosing : ∀ e ∈ st.enclosing, e.1 = module ∨ T₀.size ≤ e.1

/-- Recording a header keeps `Placing`: it nests a new declaration below the top scope left
open, which is the module or a declaration past `T₀`. -/
theorem Placing.insert {n module f : Nat} {T₀ : SymbolTree} {st st' : ModuleScan}
    (hst : Open n module st) (hpl : Placing T₀ module f st) (h : Header) (span : Span)
    (hins : Python.insert st h span = .ok st') : Placing T₀ module f st' := by
  obtain ⟨s, heq, hsp, -, hsf, -, -, hsd, -⟩ := insert_cases st h span
  obtain ⟨pre, hpre⟩ := hst.bottom
  obtain ⟨e, pre', hclose, -, hsub, -⟩ := closeScopes_spec span (module, ⟨0, n⟩) pre
  rw [← hpre] at hclose hsub
  rw [heq, hclose] at hins
  simp only [List.head?_cons, Option.map_some, Option.getD_some] at hins
  cases hnest : (st.tree.alloc s).1.nest e.1 st.tree.size with
  | error err =>
    rw [hnest] at hins
    cases hins
  | ok T =>
    rw [hnest] at hins
    cases hins
    obtain rfl := nest_ok hnest
    have he := hst.scopes e (hsub e List.mem_cons_self)
    have hsize : T₀.size ≤ st.tree.size := hpl.keeps.size_le
    have hlink := get_link (t := (st.tree.alloc s).1) (p := e.1) (c := st.tree.size)
      (by simpa using Nat.lt_succ_of_lt he.1) (by simp)
    refine ⟨hpl.file, (hpl.keeps.trans (keeps_alloc _ _)).link hsize, fun x hx hlt => ?_,
      fun x q hx hq => ?_, fun e' he' => ?_⟩
    · rw [size_link, size_alloc] at hlt
      rw [hlink x]
      show ((st.tree.alloc s).1.get x).isDeclaration = true ∧
        ((st.tree.alloc s).1.get x).file = some f
      rw [get_alloc]
      split
      · exact ⟨hsd, by rw [hsf, hpl.file]⟩
      · exact hpl.decl x hx (by omega)
    · rw [hlink x] at hq
      change (if x = st.tree.size then some e.1 else ((st.tree.alloc s).1.get x).parent) = some q
        at hq
      split at hq
      · obtain rfl := Option.some.inj hq
        exact hpl.enclosing e (hsub e List.mem_cons_self)
      · rw [get_alloc, if_neg (by assumption)] at hq
        exact hpl.parent x q hx hq
    · rcases List.mem_cons.1 he' with rfl | he'
      · exact .inr hsize
      · exact hpl.enclosing e' (hsub e' he')

/-- A scan of a Python text into a shaped tree succeeds and keeps the tree; it records the
file, and the nearest container that is no file of every declaration it adds is another
declaration or the package scope of the file's module path. -/
theorem scan_placed {tree : SymbolTree} (h : tree.Shaped) (path content : String) :
    ∃ T, Python.scan tree path content = .ok (T, tree.files.size) ∧ T.Shaped ∧ tree.Keeps T ∧
      T.file? tree.files.size = some (FileRecord.new path content) ∧
      ∀ d, tree.size ≤ d → (T.get d).isDeclaration = true →
        (T.get d).file = some tree.files.size ∧ ∃ a, T.outerScope? d = some a ∧
          ((T.get a).isDeclaration = true ∨ T.PackageAt a (ModulePath.ofPath path).names) := by
  obtain ⟨module, t₀, st₀, hmod, -, hsize, hopen, hfile, -, henc, htree, hrun⟩ :=
    scan_run_placed h path content
  have h₁ := h.addFile (FileRecord.new path content)
  have hadds₁ := addsScopes_addFile tree (FileRecord.new path content)
  obtain ⟨hadds₂, hat₂⟩ := scope_packageAt h₁ (ModulePath.ofPath path)
  have hfound := scope_found h₁ (ModulePath.ofPath path)
  rw [← hmod] at hat₂ hfound
  -- locating the module, which is no declaration, adds no declaration either
  have hmodnd := (hat₂.scope hfound.shaped.toLinked).1
  have hadds₃ : (tree.addFile (FileRecord.new path content)).1.AddsScopes st₀.tree := by
    rw [htree]
    exact hadds₂.setLocation _ hmodnd
  have hadds : tree.AddsScopes st₀.tree := hadds₁.trans hadds₃
  have hat₀ : st₀.tree.PackageAt module (ModulePath.ofPath path).names := by
    rw [htree]
    exact ((Keeps.refl _).setLocation _ hmodnd).packageAt hat₂
  have hstart : Placing st₀.tree module tree.files.size st₀ := by
    refine ⟨hfile, Keeps.refl _, fun x hx hlt => absurd hlt (Nat.not_lt_of_le hx),
      fun x q hx hq => ?_, fun e he => ?_⟩
    · rw [get_of_size_le hx] at hq
      cases hq
    · rw [henc, List.mem_singleton] at he
      exact .inl (by rw [he])
  obtain ⟨t, st, hheaders, hopen', hpl⟩ := Open.headers_induction
    (Placing st₀.tree module tree.files.size)
    (fun _ _ h span hst hP hins => hP.insert hst h span hins) (t₀.size + 1) t₀ st₀ hsize hopen
    hstart
  obtain ⟨T, hscan, hshaped, hTsize, -, hkeepT⟩ := hrun t st hheaders
  have hT' := hshaped hopen'.shaped
  have hT := hT'.isTree
  have hkeep : st₀.tree.Keeps T := hpl.keeps.trans hkeepT
  refine ⟨T, hscan, hT', hadds.toKeeps.trans hkeep, ?_, fun d hd hdd => ?_⟩
  · apply (hadds₃.toKeeps.trans hkeep).files
    simp [SymbolTree.file?]
  · -- up to the module, the scan adds scopes only
    have hd₀ := hadds.le_of_isDeclaration hkeep hd hdd
    have hdT := lt_size_of_isDeclaration hdd
    have hkd := hkeepT.kept d (by rw [← hTsize]; exact hdT)
    obtain ⟨hdd', hdf⟩ := hpl.decl d hd₀ (by rw [← hTsize]; exact hdT)
    refine ⟨(hkd.file hdd').trans hdf, ?_⟩
    have hpos : 0 < st₀.tree.size := Nat.lt_of_lt_of_le h.nonempty hadds.size_le
    obtain ⟨q, hq⟩ := hT.exists_parent hdT (by omega)
    rcases hpl.parent d q hd₀ (hkd.parent.symm.trans hq) with rfl | hqnew
    · -- below the module
      have hPT := hkeep.packageAt hat₀
      exact ⟨q, hT.outerScope?_of_parent_opaque hq (hPT.scope hT'.toLinked).2, .inr hPT⟩
    · -- below another declaration the scan added
      have hqT := hT.parent_lt hq
      have hqd := (hpl.decl q hqnew (by rw [← hTsize]; exact hqT)).1
      rw [← (hkeepT.kept q (by rw [← hTsize]; exact hqT)).isDeclaration_eq] at hqd
      exact ⟨q, hT.outerScope?_of_parent_opaque hq (Symbol.isTransparent_of_isDeclaration hqd),
        .inl hqd⟩

end Python

end Lineage
