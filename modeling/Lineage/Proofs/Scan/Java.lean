import Lineage.Java.Scan
import Lineage.Proofs.Tree.Growth
import Lineage.Proofs.Scan.Bounds
import Lineage.Proofs.Overlay.Source
/-!
Scanning a Java file keeps a tree shaped and never fails.

The scanner records declarations innermost first. A declaration found before the one
around it waits among the file's top-level declarations, without a parent; when the
declaration around it is recorded it adopts the waiting ones inside its span, and at the
end the file's scope adopts those still waiting. `Pending` is what the loop keeps: the
tree is linked, every symbol lies within the root or within a waiting declaration, and
each waiting declaration is stored after the scope, has no parent, is no package, and lies
in the file inside its text (`Waiting`). From it:

* `adopt_fold`: nesting waiting declarations below a fresh one succeeds, and moves the
  chains that ended at them on to the fresh one;
* `Pending.insert`: recording a declaration keeps `Pending`;
* `Pending.declarations`: so does the whole loop; `Pending.declarations_run` carries along
  any property of the view and the scan that each round keeps, and
  `Pending.declarations_induction` any property of the scan that recording keeps;
* `scan_start`: a scan is the loop from a state where nothing waits (`LoopStart`), then the
  file's scope adopting what is left (`bind_adopt_ok` reads off its result);
  `scan_start_placed` adds that the state is reached by adding scopes only (`ScopePlaced`);
* `scan_shaped`: a scan of a shaped tree succeeds and leaves it shaped.

Every `nest` the scanner makes is shown `Nestable`: the child has no parent, is not the
parent, and its span was read off a match inside the text or checked to lie inside the
parent's span.
-/
namespace Lineage

theorem TypeInfo.construct_foldl_addSuper {α : Type} (f : α → TypeRef) (rs : List α)
    (info : TypeInfo) :
    (rs.foldl (fun (i : TypeInfo) e => i.addSuper (f e)) info).construct = info.construct := by
  induction rs generalizing info with
  | nil => rfl
  | cons r rs ih =>
    rw [List.foldl_cons, ih]
    unfold TypeInfo.addSuper
    split <;> rfl

namespace Java

open SymbolTree

/-! ### What a scan reads -/

/-- The declarations the loop finds are matches inside the text. -/
theorem bodilessFrom_inside {t : Overlay} {ty : Match} :
    ∀ {fuel pos : Nat} {m : Match}, bodilessFrom t ty fuel pos = some m → m.Inside t.size
  | 0, _, _, h => by simp [bodilessFrom] at h
  | fuel + 1, pos, m, h => by
    unfold bodilessFrom at h
    split at h
    · cases h
    · rename_i inner hinner
      split_ifs at h
      · obtain rfl := Option.some.inj h
        exact Overlay.findAt_inside hinner
      · exact bodilessFrom_inside h

theorem bodilessMember_inside {t : Overlay} {ty m : Match} (h : bodilessMember t ty = some m) :
    m.Inside t.size := by
  unfold bodilessMember at h
  split at h
  · exact bodilessFrom_inside h
  · cases h

theorem nextDeclarationFrom_inside {t : Overlay} :
    ∀ {fuel pos : Nat} {m : Match}, nextDeclarationFrom t fuel pos = some m → m.Inside t.size
  | 0, _, _, h => by simp [nextDeclarationFrom] at h
  | fuel + 1, pos, m, h => by
    unfold nextDeclarationFrom at h
    split at h
    · cases h
    · rename_i found hfound
      have hin := Overlay.findAt_inside hfound
      split at h
      · split at h
        · split at h
          · rename_i inner hbody
            obtain rfl := Option.some.inj h
            exact bodilessMember_inside hbody
          · exact (Option.some.inj h) ▸ hin
        · exact (Option.some.inj h) ▸ hin
      · exact nextDeclarationFrom_inside h

theorem nextDeclaration_inside {t : Overlay} {m : Match} (h : nextDeclaration t = some m) :
    m.Inside t.size :=
  nextDeclarationFrom_inside h

/-- A declaration's span ends where its match ends. -/
theorem span_ofMatch_stop (t : Overlay) (m : Match) : (Decl.ofMatch t m).span.stop = m.stop := by
  simp [Decl.ofMatch]

/-- So the declaration found lies inside the text. -/
theorem stop_le_of_nextDeclaration {t : Overlay} {m : Match} (hm : nextDeclaration t = some m) :
    (Decl.ofMatch t m).span.stop ≤ t.size := by
  rw [span_ofMatch_stop]
  exact (nextDeclaration_inside hm).stop_le

/-- The keyword of a named type declaration, `class`, `interface`, `enum` or `record`; none
for an anonymous class or a method. -/
def Decl.keyword (d : Decl) : Option String :=
  match d.form with
  | .named c _ _ => some c
  | _ => none

/-- Whether the declaration is an anonymous class, which is named by its place in the file
and not by a word of the text. -/
def Decl.isAnonymous (d : Decl) : Bool :=
  match d.form with
  | .anonymous _ => true
  | _ => false

/-- Recording a declaration stores one symbol, without parent or children, located in the
file at the declaration's span and of no package kind, carrying the modifiers written for
the declaration, no constructor flag, for a named type its keyword, and unless it is an
anonymous class its name: a declaration. Then the waiting declarations inside it are
adopted, widened when it is a named type. -/
theorem insert_decl (st : FileScan) (d : Decl) :
    ∃ s anon, insert st d =
        adoptMembers { st with tree := (st.tree.alloc s).1, anonymous := anon }
          st.tree.size d.span d.keyword ∧
      s.parent = none ∧ s.children = #[] ∧ s.file = some st.file ∧
      s.span = some d.span ∧ SymbolClass.package.accepts s.kind = false ∧
      s.modifiers = Modifiers.ofList (d.modifiers.map modifierOf) ∧
      (∀ info, s.kind = .method info → info.isConstructor = false) ∧
      (∀ c, d.keyword = some c → ∃ info, s.kind = .type info ∧ info.construct = c) ∧
      s.isDeclaration = true ∧ (d.isAnonymous = false → s.name = d.name) := by
  rcases d with ⟨name, span, tp, mods, form⟩
  simp only [insert]
  cases form with
  | named construct ext impl =>
    simp only [alloc_snd]
    rw [alloc_modify]
    refine ⟨_, _, rfl, rfl, rfl, rfl, rfl, rfl, rfl, ?_, ?_, rfl, fun _ => rfl⟩
    · intro info h
      cases h
    · intro c hc
      cases hc
      exact ⟨_, rfl, by rw [TypeInfo.construct_foldl_addSuper, TypeInfo.construct_foldl_addSuper]⟩
  | anonymous sup =>
    simp only [alloc_snd]
    rw [alloc_modify]
    -- an anonymous class is a type, and no named one
    cases sup
    all_goals
      refine ⟨_, _, rfl, rfl, rfl, rfl, rfl, rfl, rfl, ?_, ?_, rfl, nofun⟩
      all_goals
        intro _ h
        cases h
  | method rt ps th =>
    simp only [alloc_snd]
    rw [alloc_modify]
    refine ⟨_, _, rfl, rfl, rfl, rfl, rfl, rfl, rfl, ?_, ?_, rfl, fun _ => rfl⟩
    · intro info h
      cases h
      rfl
    · intro c hc
      cases hc

/-- Recording a declaration stores one symbol, without parent or children, located in the
file at the declaration's span and of no package kind, and then adopts members below it. -/
theorem insert_cases (st : FileScan) (d : Decl) :
    ∃ s anon named, insert st d =
        adoptMembers { st with tree := (st.tree.alloc s).1, anonymous := anon }
          st.tree.size d.span named ∧
      s.parent = none ∧ s.children = #[] ∧ s.file = some st.file ∧
      s.span = some d.span ∧ SymbolClass.package.accepts s.kind = false := by
  obtain ⟨s, anon, heq, hp, hc, hf, hs, hpk, -⟩ := insert_decl st d
  exact ⟨s, anon, d.keyword, heq, hp, hc, hf, hs, hpk⟩

/-- Widening a member changes its modifiers and at most the constructor flag of a method:
nothing of its shape. -/
theorem widenMember_sameShape (tree : SymbolTree) (member : Nat) (construct : Option String)
    (typeName : String) (i : Nat) :
    ((widenMember tree member construct typeName).get i).SameShape (tree.get i) := by
  cases construct with
  | none => exact Symbol.SameShape.refl _
  | some c =>
    simp only [widenMember]
    by_cases hm : member < tree.size
    · rw [get_modify _ hm]
      split
      · refine ⟨rfl, rfl, rfl, rfl, rfl, ?_⟩
        -- only a method's constructor flag may change, and a method stays a method
        cases hk : (tree.get i).kind with
        | method info => simp only; split <;> rfl
        | _ => simp only
      · exact Symbol.SameShape.refl _
    · rw [get_modify_of_size_le _ (Nat.le_of_not_lt hm)]
      exact Symbol.SameShape.refl _

theorem get_widenMember_of_ne (tree : SymbolTree) {member i : Nat} (construct : Option String)
    (typeName : String) (hi : i ≠ member) :
    (widenMember tree member construct typeName).get i = tree.get i := by
  cases construct with
  | none => rfl
  | some c => exact get_modify_ne _ hi

@[simp] theorem size_widenMember (tree : SymbolTree) (member : Nat) (construct : Option String)
    (typeName : String) : (widenMember tree member construct typeName).size = tree.size := by
  cases construct <;> simp [widenMember]

@[simp] theorem files_widenMember (tree : SymbolTree) (member : Nat) (construct : Option String)
    (typeName : String) : (widenMember tree member construct typeName).files = tree.files := by
  cases construct <;> rfl

theorem widenMember_linked {tree : SymbolTree} (h : tree.Linked) {member : Nat} (hm : member ≠ 0)
    (construct : Option String) (typeName : String) :
    (widenMember tree member construct typeName).Linked := by
  refine h.congr (size_widenMember ..) (by rw [files_widenMember])
    (widenMember_sameShape tree member construct typeName) ?_
  rw [get_widenMember_of_ne _ _ _ (Ne.symm hm)]
  exact h.root_project

end Java

namespace SymbolTree

/-- A chain of parents survives when links are only added. -/
theorem climb_of_parents_kept {t t' : SymbolTree}
    (h : ∀ i q, (t.get i).parent = some q → (t'.get i).parent = some q) :
    ∀ {n i r : Nat}, t.climb n i = some r → t'.climb n i = some r
  | 0, _, _, hc => hc
  | n + 1, i, r, hc => by
    rw [climb_succ] at hc ⊢
    cases hp : (t.get i).parent with
    | none => simp [hp] at hc
    | some q =>
      rw [hp, Option.bind_some] at hc
      rw [h i q hp, Option.bind_some]
      exact climb_of_parents_kept h hc

theorem Within.of_parents_kept {t t' : SymbolTree}
    (h : ∀ i q, (t.get i).parent = some q → (t'.get i).parent = some q) {i r : Nat}
    (hw : t.Within i r) : t'.Within i r := by
  obtain ⟨n, hn⟩ := hw
  exact ⟨n, climb_of_parents_kept h hn⟩

theorem kind_addImport (t : SymbolTree) (id : Nat) (r : ImportRule) (i : Nat) :
    ((t.addImport id r).get i).kind = (t.get i).kind := by
  unfold addImport
  by_cases hid : id < t.size
  · rw [get_modify _ hid]
    split
    · split <;> rfl
    · rfl
  · rw [get_modify_of_size_le _ (Nat.le_of_not_lt hid)]


end SymbolTree

/-- Two symbols in the same file at the same span, both or neither a package: what adoption
keeps of every symbol. -/
structure Symbol.SamePlace (a b : Symbol) : Prop where
  file : a.file = b.file
  span : a.span = b.span
  package : SymbolClass.package.accepts a.kind = SymbolClass.package.accepts b.kind

theorem Symbol.SamePlace.refl (a : Symbol) : a.SamePlace a := ⟨rfl, rfl, rfl⟩

theorem Symbol.SamePlace.trans {a b c : Symbol} (hab : a.SamePlace b) (hbc : b.SamePlace c) :
    a.SamePlace c :=
  ⟨hab.file.trans hbc.file, hab.span.trans hbc.span, hab.package.trans hbc.package⟩

namespace Java

open SymbolTree

/-! ### Adopting waiting declarations -/

/-- Members `p` can adopt one after another: distinct, stored, neither the root nor `p`,
without a parent, no package, and inside `p`'s span where they share its file. -/
structure Adoptable (t : SymbolTree) (p : Nat) (ms : List Nat) : Prop where
  nodup : ms.Nodup
  lt : ∀ m ∈ ms, m < t.size
  ne_root : ∀ m ∈ ms, m ≠ 0
  ne : ∀ m ∈ ms, m ≠ p
  free : ∀ m ∈ ms, (t.get m).parent = none
  not_package : ∀ m ∈ ms, SymbolClass.package.accepts (t.get m).kind = false
  inside : ∀ m ∈ ms, ∀ f ps cs, (t.get p).file = some f → (t.get m).file = some f →
    (t.get p).span = some ps → (t.get m).span = some cs → ps.contains cs

/-- What adopting `ms` below `p` makes of `t`: a linked tree of the same symbols, in which
the members hang below `p` and every chain that ended at a member goes on to where `p`'s
chain goes. -/
structure Adopted (t t' : SymbolTree) (p : Nat) (ms : List Nat) : Prop where
  linked : t'.Linked
  size : t'.size = t.size
  files : t'.files = t.files
  place : ∀ i, (t'.get i).SamePlace (t.get i)
  parent : ∀ i, (t'.get i).parent = if i ∈ ms then some p else (t.get i).parent
  grounded : ∀ (top : Nat → Prop) (rp : Nat), t.Grounded top → t.Within p rp → top rp →
    rp ∉ ms → t'.Grounded (fun r => top r ∧ r ∉ ms)

/-- The step of the adoption fold: one member moves below `p`. -/
abbrev adoptStep (p : Nat) (construct : Option String) (typeName : String) (tree : SymbolTree)
    (member : Nat) : Except BuildError SymbolTree :=
  (widenMember tree member construct typeName).nest p member

theorem Adopted.refl {t : SymbolTree} (h : t.Linked) (p : Nat) : Adopted t t p [] where
  linked := h
  size := rfl
  files := rfl
  place i := Symbol.SamePlace.refl _
  parent i := by simp
  grounded top rp hg _ _ _ := hg.mono fun r hr => ⟨hr, List.not_mem_nil⟩

/-- Links are only added: a member had no parent. -/
theorem Adopted.parent_kept {t t' : SymbolTree} {p : Nat} {ms : List Nat} (h : Adopted t t' p ms)
    (hfree : ∀ m ∈ ms, (t.get m).parent = none) (i q : Nat)
    (hq : (t.get i).parent = some q) : (t'.get i).parent = some q := by
  rw [h.parent i]
  split
  · rename_i hi
    rw [hfree i hi] at hq
    cases hq
  · exact hq

theorem Adopted.trans {t t₁ t₂ : SymbolTree} {p m : Nat} {ms : List Nat}
    (h₁ : Adopted t t₁ p [m]) (h₂ : Adopted t₁ t₂ p ms) (hfree : (t.get m).parent = none) :
    Adopted t t₂ p (m :: ms) where
  linked := h₂.linked
  size := h₂.size.trans h₁.size
  files := h₂.files.trans h₁.files
  place i := (h₂.place i).trans (h₁.place i)
  parent i := by
    rw [h₂.parent i, h₁.parent i]
    by_cases hi : i ∈ ms <;> by_cases him : i = m <;> simp [hi, him]
  grounded top rp hg hw htop hrp := by
    have hkept := h₁.parent_kept (by simpa using hfree)
    have hrm : rp ≠ m := fun h => hrp (h ▸ List.mem_cons_self)
    -- after the first member the chains end at `top` roots other than `m`
    have hg₁ := h₁.grounded top rp hg hw htop (by simpa using hrm)
    have hg₂ := h₂.grounded _ rp hg₁ (Within.of_parents_kept hkept hw)
      ⟨htop, by simpa using hrm⟩ (fun h => hrp (List.mem_cons_of_mem _ h))
    refine hg₂.mono fun r ⟨⟨hr, hrm'⟩, hrs⟩ => ⟨hr, ?_⟩
    simp only [List.mem_cons, not_or]
    exact ⟨by simpa using hrm', hrs⟩

theorem Adoptable.nestable {t : SymbolTree} {p m : Nat} {ms : List Nat}
    (h : Adoptable t p (m :: ms)) : t.Nestable p m :=
  ⟨Ne.symm (h.ne m List.mem_cons_self), h.free m List.mem_cons_self,
    h.inside m List.mem_cons_self⟩

/-- One member moves below `p`. -/
theorem adoptStep_ok {t : SymbolTree} (h : t.Linked) {p m : Nat} {ms : List Nat}
    (hp : p < t.size) (ha : Adoptable t p (m :: ms)) (construct : Option String)
    (typeName : String) :
    adoptStep p construct typeName t m =
        .ok ((widenMember t m construct typeName).link p m) ∧
      Adopted t ((widenMember t m construct typeName).link p m) p [m] := by
  have hm := List.mem_cons_self (a := m) (l := ms)
  set w := widenMember t m construct typeName with hw
  have hsame : ∀ i, (w.get i).SameShape (t.get i) := widenMember_sameShape t m construct typeName
  have hwp : p < w.size := by simpa [hw] using hp
  have hwm : m < w.size := by simpa [hw] using ha.lt m hm
  have hnest : w.Nestable p m := by
    obtain ⟨hne, hfree, hin⟩ := ha.nestable
    refine ⟨hne, (hsame m).parent.trans hfree, fun f ps cs h1 h2 h3 h4 => ?_⟩
    rw [(hsame p).file, (hsame p).span] at *
    rw [(hsame m).file] at h2
    rw [(hsame m).span] at h4
    exact hin f ps cs h1 h2 h3 h4
  refine ⟨nest_eq_ok hnest, ?_, ?_, ?_, ?_, ?_, ?_⟩
  · refine (widenMember_linked h (ha.ne_root m hm) construct typeName).link hwp hwm
      (ha.ne_root m hm) hnest.2.1 ?_ ?_
    · rw [(hsame m).package, ha.not_package m hm]
      intro hf
      cases hf
    · intro f cs ps hc hp' hcs hps
      exact hnest.2.2 f ps cs hp' hc hps hcs
  · simp [hw]
  · simp [hw]
  · intro i
    rw [get_link hwp hwm]
    exact ⟨(hsame i).file, (hsame i).span, (hsame i).package⟩
  · intro i
    rw [get_link hwp hwm]
    simp only [List.mem_singleton]
    split <;> simp [(hsame i).parent]
  · intro top rp hg hwithin htop hrp
    have hg' : w.Grounded top := hg.of_parents (by simp [hw]) fun i => (hsame i).parent
    have hwithin' : w.Within p rp := by
      rwa [Within, climb_congr fun i => (hsame i).parent]
    refine (hg'.link hwp hwm hnest.2.1 hwithin' htop (by simpa using hrp)).mono ?_
    intro r ⟨hr, hrm⟩
    exact ⟨hr, by simpa using hrm⟩

theorem Adoptable.tail {t t₁ : SymbolTree} {p m : Nat} {ms : List Nat}
    (ha : Adoptable t p (m :: ms)) (h : Adopted t t₁ p [m]) : Adoptable t₁ p ms := by
  have hnd := List.nodup_cons.1 ha.nodup
  have hne : ∀ x ∈ ms, x ≠ m := fun x hx hxm => hnd.1 (hxm ▸ hx)
  refine ⟨hnd.2, fun x hx => ?_, fun x hx => ha.ne_root x (.tail _ hx),
    fun x hx => ha.ne x (.tail _ hx), fun x hx => ?_, fun x hx => ?_, fun x hx => ?_⟩
  · rw [h.size]
    exact ha.lt x (.tail _ hx)
  · rw [h.parent x, if_neg (by simpa using hne x hx)]
    exact ha.free x (.tail _ hx)
  · rw [(h.place x).package]
    exact ha.not_package x (.tail _ hx)
  · intro f ps cs
    rw [(h.place p).file, (h.place x).file, (h.place p).span, (h.place x).span]
    exact ha.inside x (.tail _ hx) f ps cs

/-- Adopting members one after another succeeds. -/
theorem adopt_fold {t : SymbolTree} (h : t.Linked) {p : Nat} (hp : p < t.size) {ms : List Nat}
    (ha : Adoptable t p ms) (construct : Option String) (typeName : String) :
    ∃ t', ms.foldlM (adoptStep p construct typeName) t = .ok t' ∧ Adopted t t' p ms := by
  induction ms generalizing t with
  | nil => exact ⟨t, rfl, Adopted.refl h p⟩
  | cons m ms ih =>
    obtain ⟨hstep, h₁⟩ := adoptStep_ok h hp ha construct typeName
    obtain ⟨t', hfold, h₂⟩ :=
      ih h₁.linked (by rw [h₁.size]; exact hp) (ha.tail h₁)
    refine ⟨t', ?_, h₁.trans h₂ (ha.free m List.mem_cons_self)⟩
    simpa only [List.foldlM_cons, hstep, bind, Except.bind] using hfold

/-! ### The invariant of the declaration loop -/

/-- The declarations waiting for the one around them. -/
def FileScan.waiting (st : FileScan) : List Nat := st.topLevel.map (·.2)

/-- A declaration waiting for the one around it: stored after the file's scope, without a
parent, no package, and located in the file inside its text of `n` bytes. -/
structure Waiting (t : SymbolTree) (scope file n w : Nat) : Prop where
  after : scope < w
  lt : w < t.size
  free : (t.get w).parent = none
  not_package : SymbolClass.package.accepts (t.get w).kind = false
  file : (t.get w).file = some file
  inside : ∀ sp, (t.get w).span = some sp → (⟨0, n⟩ : Span).contains sp

/-- What the declaration loop keeps, for a text of `n` bytes whose scope is `scope`: every
symbol lies within the root or within a waiting declaration. -/
structure Pending (n scope : Nat) (st : FileScan) : Prop where
  linked : st.tree.Linked
  grounded : st.tree.Grounded fun r => r = 0 ∨ r ∈ st.waiting
  nodup : st.waiting.Nodup
  waiting : ∀ w ∈ st.waiting, Waiting st.tree scope st.file n w
  scope_lt : scope < st.tree.size
  scope_rooted : st.tree.Within scope 0
  scope_file : (st.tree.get scope).file = some st.file
  scope_span : (st.tree.get scope).span = some ⟨0, n⟩
  file_lt : st.file < st.tree.files.size

theorem Waiting.alloc {t : SymbolTree} {scope file n w : Nat} (h : Waiting t scope file n w)
    (s : Symbol) : Waiting (t.alloc s).1 scope file n w := by
  have hget : (t.alloc s).1.get w = t.get w := by
    rw [get_alloc, if_neg (Nat.ne_of_lt h.lt)]
  refine ⟨h.after, ?_, ?_, ?_, ?_, ?_⟩
  · simpa using Nat.lt_succ_of_lt h.lt
  all_goals rw [hget]
  exacts [h.free, h.not_package, h.file, h.inside]

theorem Waiting.adopted {t t' : SymbolTree} {p scope file n w : Nat} {ms : List Nat}
    (h : Waiting t scope file n w) (ha : Adopted t t' p ms) (hw : w ∉ ms) :
    Waiting t' scope file n w where
  after := h.after
  lt := ha.size ▸ h.lt
  free := by rw [ha.parent, if_neg hw]; exact h.free
  not_package := by rw [(ha.place w).package]; exact h.not_package
  file := by rw [(ha.place w).file]; exact h.file
  inside := by rw [(ha.place w).span]; exact h.inside

/-- The waiting declarations a declaration at `span` adopts: those after its start and
inside it. -/
def adoptees (st : FileScan) (span : Span) : List Nat :=
  (st.topLevel.filter fun (start, m) => span.start < start && match (st.tree.get m).span with
    | some s => span.contains s
    | none => false).map (·.2)

theorem adoptees_sublist (st : FileScan) (span : Span) : (adoptees st span).Sublist st.waiting :=
  List.filter_sublist.map _

theorem span_of_mem_adoptees {st : FileScan} {span : Span} {m : Nat} (hm : m ∈ adoptees st span) :
    ∃ sp, (st.tree.get m).span = some sp ∧ span.contains sp := by
  obtain ⟨⟨start, m'⟩, hmem, rfl⟩ := List.mem_map.1 hm
  have hsel := (List.mem_filter.1 hmem).2
  simp only [Bool.and_eq_true] at hsel
  revert hsel
  cases (st.tree.get m').span with
  | none => simp
  | some sp => exact fun hsel => ⟨sp, rfl, hsel.2⟩

/-- Adoption, once its fold succeeds, leaves the new declaration waiting in place of those
it adopted. -/
theorem adoptMembers_ok {st : FileScan} {id : Nat} {span : Span} {construct : Option String}
    {t' : SymbolTree}
    (h : (adoptees st span).foldlM (adoptStep id construct (st.tree.get id).name) st.tree = .ok t') :
    ∃ top : List (Nat × Nat),
      adoptMembers st id span construct = .ok { st with tree := t', topLevel := top } ∧
      top.Perm ((span.start, id) :: st.topLevel.filter fun (_, m) => !(adoptees st span).contains m) := by
  unfold adoptMembers
  change (∃ top, @bind (Except BuildError) _ _ _ ((adoptees st span).foldlM _ st.tree) _ = _ ∧ _)
  rw [h]
  refine ⟨_, rfl, ?_⟩
  -- the new declaration goes in among the remaining ones, by start offset
  rw [List.append_assoc, List.singleton_append]
  refine List.perm_middle.trans (List.Perm.cons _ ?_)
  rw [List.takeWhile_append_dropWhile]
  exact List.Perm.refl _

/-- After adoption the waiting declarations are the new one and those not adopted. -/
theorem mem_waiting_of_perm {st : FileScan} {span : Span} {id : Nat} {top : List (Nat × Nat)}
    (hperm : top.Perm ((span.start, id) :: st.topLevel.filter fun (_, m) => !(adoptees st span).contains m))
    (r : Nat) : r ∈ top.map (·.2) ↔ r = id ∨ (r ∈ st.waiting ∧ r ∉ adoptees st span) := by
  rw [(hperm.map _).mem_iff]
  simp only [List.map_cons, List.mem_cons, FileScan.waiting, List.mem_map, List.mem_filter,
    Bool.not_eq_true', List.contains_eq_mem, decide_eq_false_iff_not]
  constructor
  · rintro (h | ⟨⟨a, b⟩, ⟨hmem, hnot⟩, rfl⟩)
    · exact .inl h
    · exact .inr ⟨⟨(a, b), hmem, rfl⟩, hnot⟩
  · rintro (h | ⟨⟨⟨a, b⟩, hmem, rfl⟩, hnot⟩)
    · exact .inl h
    · exact .inr ⟨(a, b), ⟨hmem, hnot⟩, rfl⟩

theorem nodup_waiting_of_perm {st : FileScan} {span : Span} {id : Nat} {top : List (Nat × Nat)}
    (hperm : top.Perm ((span.start, id) :: st.topLevel.filter fun (_, m) => !(adoptees st span).contains m))
    (hnd : st.waiting.Nodup) (hid : id ∉ st.waiting) : (top.map (·.2)).Nodup := by
  rw [(hperm.map _).nodup_iff, List.map_cons, List.nodup_cons]
  have hsub : ((st.topLevel.filter fun (_, m) => !(adoptees st span).contains m).map (·.2)).Sublist
      st.waiting := List.filter_sublist.map _
  exact ⟨fun h => hid (hsub.subset h), hsub.nodup hnd⟩

/-- The waiting declarations of a scan are adoptable by a declaration just stored at `span`. -/
theorem Pending.adoptable {n scope : Nat} {st : FileScan} (h : Pending n scope st) {s : Symbol}
    {span : Span} (hs : s.span = some span) (anon : Nat) :
    Adoptable (st.tree.alloc s).1 st.tree.size
      (adoptees { st with tree := (st.tree.alloc s).1, anonymous := anon } span) := by
  have hsub := adoptees_sublist { st with tree := (st.tree.alloc s).1, anonymous := anon } span
  have hw : ∀ m ∈ adoptees { st with tree := (st.tree.alloc s).1, anonymous := anon } span,
      Waiting st.tree scope st.file n m := fun m hm => h.waiting m (hsub.subset hm)
  have hold : ∀ m ∈ adoptees { st with tree := (st.tree.alloc s).1, anonymous := anon } span,
      (st.tree.alloc s).1.get m = st.tree.get m := fun m hm => by
    rw [get_alloc, if_neg (Nat.ne_of_lt (hw m hm).lt)]
  refine ⟨hsub.nodup h.nodup, fun m hm => ?_, fun m hm => ?_, fun m hm => Nat.ne_of_lt (hw m hm).lt,
    fun m hm => ?_, fun m hm => ?_, fun m hm => ?_⟩
  · simpa using Nat.lt_succ_of_lt (hw m hm).lt
  · exact Nat.ne_of_gt (Nat.lt_of_le_of_lt (Nat.zero_le _) (hw m hm).after)
  · rw [hold m hm]
    exact (hw m hm).free
  · rw [hold m hm]
    exact (hw m hm).not_package
  · -- the adoption test read the member's span in the same tree
    intro f ps cs _ _ hps hcs
    obtain ⟨sp, hsp, hcontains⟩ := span_of_mem_adoptees hm
    rw [get_alloc, if_pos rfl, hs] at hps
    have : cs = sp := Option.some.inj (hcs.symm.trans hsp)
    rw [← Option.some.inj hps, this]
    exact hcontains

/-- Recording a declaration inside the text keeps the loop's invariant. -/
theorem Pending.insert {n scope : Nat} {st : FileScan} (h : Pending n scope st) (d : Decl)
    (hd : d.span.stop ≤ n) : ∃ st', insert st d = .ok st' ∧ Pending n scope st' := by
  obtain ⟨s, anon, named, heq, hsp, hsc, hsf, hss, hspk⟩ := insert_cases st d
  rw [heq]
  have ha := h.adoptable hss anon
  have hid : (st.tree.alloc s).1.get st.tree.size = s := by rw [get_alloc, if_pos rfl]
  have hlinked : (st.tree.alloc s).1.Linked :=
    h.linked.alloc hsp hsc fun f hf => by
      rw [hsf] at hf
      cases hf
      exact h.file_lt
  obtain ⟨t', hfold, hadopt⟩ := adopt_fold hlinked (by simp) ha named
    ((st.tree.alloc s).1.get st.tree.size).name
  obtain ⟨top, hok, hperm⟩ := @adoptMembers_ok { st with tree := (st.tree.alloc s).1, anonymous := anon }
    st.tree.size d.span named t' hfold
  refine ⟨_, hok, ?_⟩
  have hmem := mem_waiting_of_perm hperm
  have hnotin : st.tree.size ∉ adoptees { st with tree := (st.tree.alloc s).1, anonymous := anon }
      d.span := fun hm => ha.ne _ hm rfl
  have hkept := hadopt.parent_kept ha.free
  -- the stored declaration waits like the others
  have hnew : Waiting t' scope st.file n st.tree.size := by
    refine Waiting.adopted ⟨h.scope_lt, by simp, ?_, ?_, ?_, ?_⟩ hadopt hnotin
    all_goals rw [hid]
    · exact hsp
    · exact hspk
    · exact hsf
    · intro sp hsp'
      rw [hss] at hsp'
      cases hsp'
      simpa [Span.contains] using hd
  have hscope : (st.tree.alloc s).1.get scope = st.tree.get scope := by
    rw [get_alloc, if_neg (Nat.ne_of_lt h.scope_lt)]
  refine ⟨hadopt.linked, ?_, ?_, ?_, ?_, ?_, ?_, ?_, ?_⟩
  · -- chains that ended at an adopted declaration now end at the new one
    have hg := hadopt.grounded _ _ (h.grounded.alloc hsp) (Within.refl _ _) (Or.inr rfl) hnotin
    refine hg.mono fun r hr' => ?_
    obtain ⟨hr, hra⟩ := hr'
    simp only [FileScan.waiting] at hmem ⊢
    rcases hr with (rfl | hr) | rfl
    · exact .inl rfl
    · exact .inr ((hmem r).2 (.inr ⟨hr, hra⟩))
    · exact .inr ((hmem _).2 (.inl rfl))
  · exact nodup_waiting_of_perm hperm h.nodup fun hw => Nat.lt_irrefl _ (h.waiting _ hw).lt
  · intro w hw
    rcases (mem_waiting_of_perm hperm w).1 hw with rfl | ⟨hw, hwa⟩
    · exact hnew
    · exact ((h.waiting w hw).alloc s).adopted hadopt hwa
  · simpa [hadopt.size] using Nat.lt_succ_of_lt h.scope_lt
  · refine Within.of_parents_kept hkept ?_
    obtain ⟨k, hk⟩ := h.scope_rooted
    exact ⟨k, by rw [climb_alloc _ hsp]; exact hk⟩
  · rw [(hadopt.place scope).file, hscope]
    exact h.scope_file
  · rw [(hadopt.place scope).span, hscope]
    exact h.scope_span
  · rw [hadopt.files]
    exact h.file_lt

/-- Induction along the declaration loop, which never fails: a property of the view and the
scan that each round keeps, recording the declaration found and masking its match, or masking
blocks when none is found, holds of the view and the scan where the loop ends. No round
changes the text's size. -/
theorem Pending.declarations_run {n scope : Nat} (P : Overlay → FileScan → Prop)
    (hstep : ∀ t st st' m, Pending n scope st → P t st → nextDeclaration t = some m →
      Java.insert st (Decl.ofMatch t m) = .ok st' → P (t.mask m.start m.stop) st')
    (hblocks : ∀ t st, P t st → P (t.maskAll blockProgram).1 st) :
    ∀ (fuel : Nat) (t : Overlay) (st : FileScan), t.size = n → Pending n scope st → P t st →
      ∃ t' st', Java.declarations fuel t st = .ok st' ∧ Pending n scope st' ∧ P t' st'
  | 0, t, st, _, h, hP => ⟨t, st, rfl, h, hP⟩
  | fuel + 1, t, st, ht, h, hP => by
    unfold Java.declarations
    split
    · rename_i m hm
      obtain ⟨st₁, hins, h₁⟩ := h.insert _ (ht ▸ stop_le_of_nextDeclaration hm)
      obtain ⟨t', st', hrun, h', hP'⟩ := Pending.declarations_run P hstep hblocks fuel
        (t.mask m.start m.stop) st₁ (by rw [Overlay.size_mask, ht]) h₁ (hstep t st st₁ m h hP hm hins)
      exact ⟨t', st', by simpa only [hins, bind, Except.bind] using hrun, h', hP'⟩
    · -- no declaration is left: blocks are masked, or the loop stops
      rcases hmask : t.maskAll blockProgram with ⟨t', changed⟩
      have ht' : t'.size = n := by
        rw [← ht, ← Overlay.size_maskAll t blockProgram, hmask]
      have hP' : P t' st := by simpa only [hmask] using hblocks t st hP
      cases changed with
      | true => exact Pending.declarations_run P hstep hblocks fuel t' st ht' h hP'
      | false => exact ⟨t, st, rfl, h, hP⟩

/-- What recording a declaration keeps along with `Pending`, the declaration loop keeps. -/
theorem Pending.declarations_induction {n scope : Nat} (P : FileScan → Prop)
    (hstep : ∀ st st' d, Pending n scope st → P st → Java.insert st d = .ok st' → P st') :
    ∀ (fuel : Nat) (t : Overlay) (st : FileScan), t.size = n → Pending n scope st → P st →
      ∃ st', Java.declarations fuel t st = .ok st' ∧ Pending n scope st' ∧ P st' := by
  intro fuel t st ht h hP
  obtain ⟨-, st', hrun, h', hP'⟩ := Pending.declarations_run (fun _ => P)
    (fun _ st st' _ h hP _ hins => hstep st st' _ h hP hins) (fun _ _ hP => hP) fuel t st ht h hP
  exact ⟨st', hrun, h', hP'⟩

/-- The declaration loop keeps the invariant and never fails. -/
theorem Pending.declarations {n scope : Nat} :
    ∀ (fuel : Nat) (t : Overlay) (st : FileScan), t.size = n → Pending n scope st →
      ∃ st', Java.declarations fuel t st = .ok st' ∧ Pending n scope st' := fun fuel t st ht h => by
  obtain ⟨st', hrun, h', -⟩ := Pending.declarations_induction (fun _ => True)
    (fun _ _ _ _ _ _ => trivial) fuel t st ht h trivial
  exact ⟨st', hrun, h'⟩

/-- The declarations still waiting at the end are adoptable by the file's scope. -/
theorem Pending.adoptable_scope {n scope : Nat} {st : FileScan} (h : Pending n scope st) : Adoptable st.tree scope st.waiting := by
  refine ⟨h.nodup, fun w hw => (h.waiting w hw).lt,
    fun w hw => Nat.ne_of_gt (Nat.lt_of_le_of_lt (Nat.zero_le _) (h.waiting w hw).after),
    fun w hw => Nat.ne_of_gt (h.waiting w hw).after, fun w hw => (h.waiting w hw).free,
    fun w hw => (h.waiting w hw).not_package, ?_⟩
  intro w hw f ps cs _ _ hps hcs
  rw [h.scope_span] at hps
  cases hps
  exact (h.waiting w hw).inside cs hcs

/-- At the end of a scan the file's scope adopts the declarations still waiting, and the tree
is shaped again: every chain that ended at one of them goes on to the root. -/
theorem Pending.finish {n scope : Nat} {st : FileScan} (h : Pending n scope st) :
    ∃ t, st.topLevel.foldlM (fun tree (x : Nat × Nat) => tree.nest scope x.2) st.tree = .ok t ∧
      t.Shaped := by
  have ha := h.adoptable_scope
  obtain ⟨t, hfold, hadopt⟩ := adopt_fold h.linked h.scope_lt ha none ""
  refine ⟨t, ?_, ?_⟩
  · rw [FileScan.waiting, List.foldlM_map] at hfold
    exact hfold
  · -- every chain now ends at the root
    have h0 : 0 ∉ st.waiting := fun h0 => ha.ne_root 0 h0 rfl
    have hg := hadopt.grounded _ 0 h.grounded h.scope_rooted (.inl rfl) h0
    refine Shaped.of_grounded hadopt.linked (hg.mono fun r ⟨hr, hrw⟩ => ?_)
    rcases hr with hr | hr
    · exact hr
    · exact absurd hr hrw

/-! ### A whole scan -/

/-- Recording a file's imports keeps a tree shaped, and every symbol's shape. -/
theorem foldl_addImport {t : SymbolTree} (h : t.Shaped) (scope : Nat) (rs : List ImportRule) :
    (rs.foldl (fun tree r => tree.addImport scope r) t).Shaped ∧
      (rs.foldl (fun tree r => tree.addImport scope r) t).size = t.size ∧
      (rs.foldl (fun tree r => tree.addImport scope r) t).files = t.files ∧
      ∀ i, ((rs.foldl (fun tree r => tree.addImport scope r) t).get i).SameShape (t.get i) := by
  induction rs generalizing t with
  | nil => exact ⟨h, rfl, rfl, fun i => Symbol.SameShape.refl _⟩
  | cons r rs ih =>
    rw [List.foldl_cons]
    obtain ⟨h', hsize, hfiles, hsame⟩ := ih (h.addImport scope r)
    refine ⟨h', by rw [hsize, size_addImport], by rw [hfiles, files_addImport], fun i => ?_⟩
    exact (hsame i).trans (addImport_sameShape t scope r i)

/-- The state the declaration loop starts from: nothing waits yet. -/
theorem pending_start {t : SymbolTree} (h : t.Shaped) {scope file n : Nat} (path : String)
    (hscope : scope < t.size) (hfile : (t.get scope).file = some file)
    (hspan : (t.get scope).span = some ⟨0, n⟩) (hlt : file < t.files.size) :
    Pending n scope { tree := t, file, path, anonymous := 0, topLevel := [] } where
  linked := h.toLinked
  grounded := h.grounded.mono fun _ hr => .inl hr
  nodup := List.nodup_nil
  waiting _ hw := absurd hw List.not_mem_nil
  scope_lt := hscope
  scope_rooted := h.rooted scope hscope
  scope_file := hfile
  scope_span := hspan
  file_lt := hlt

theorem kind_foldl_addImport (t : SymbolTree) (scope : Nat) (rs : List ImportRule) (i : Nat) :
    ((rs.foldl (fun tree r => tree.addImport scope r) t).get i).kind = (t.get i).kind := by
  induction rs generalizing t with
  | nil => rfl
  | cons r rs ih => rw [List.foldl_cons, ih, kind_addImport]

/-- The view of a text that the declaration loop of a scan reads: its comments and literals,
its package declaration and its import declarations masked. -/
def declarationView (content : String) : Overlay :=
  let t := (Overlay.ofString content).maskAll literalProgram |>.1
  let package := (t.find packageProgram).map fun m =>
    (dottedParts ((t.groupSource m "name").getD ""), m.start, m.stop)
  let t := match package with
    | some (_, a, b) => t.mask a b
    | none => t
  (t.maskAll importProgram).1

theorem size_declarationView (content : String) :
    (declarationView content).size = content.utf8ByteSize := by
  unfold declarationView
  dsimp only
  split <;> simp only [Overlay.size_mask, Overlay.size_maskAll] <;>
    simp [Overlay.size, Overlay.ofString]

/-- Every mask of the view writes the mask byte. -/
theorem onlyMasked_declarationView (content : String) :
    (declarationView content).OnlyMasked := by
  have h₀ := (Overlay.onlyMasked_ofString content).maskAll literalProgram
  unfold declarationView
  dsimp only
  split
  · exact (h₀.mask _ _).maskAll importProgram
  · exact h₀.maskAll importProgram

/-- The package a text declares: the names of its first package declaration outside comments
and literals, none when it declares none. -/
def declaredPackage (content : String) : List String :=
  let t := (Overlay.ofString content).maskAll literalProgram |>.1
  ((t.find packageProgram).map fun m => dottedParts ((t.groupSource m "name").getD "")).getD []

/-- The record of a file that declares the package `names`. -/
def packageRecord (path content : String) (names : List String) : FileRecord :=
  { (FileRecord.new path content) with
    package := if names.isEmpty then none else some (".".intercalate names) }

/-- Where the declaration loop of a scan of `content` into `tree` starts: the shaped tree `T`
holds the file's scope `scope` last, a file scope without children located in the new file
at the whole text, and no symbol before it lies in that file; the view `t` of the text, its
literals, package and imports masked, differs from the text by masks only. -/
structure LoopStart (tree : SymbolTree) (content : String) (T : SymbolTree) (t : Overlay)
    (scope : Nat) : Prop where
  view : t = declarationView content
  shaped : T.Shaped
  size : T.size = scope + 1
  view_size : t.size = content.utf8ByteSize
  onlyMasked : t.OnlyMasked
  files : tree.files.size < T.files.size
  file : (T.get scope).file = some tree.files.size
  span : (T.get scope).span = some ⟨0, content.utf8ByteSize⟩
  kind : (T.get scope).kind = .file
  children : (T.get scope).children = #[]
  before : ∀ i, i < scope → (T.get i).file ≠ some tree.files.size

/-- How the tree where the loop starts grew from the tree scanned: by scopes only, with the
file's scope below the package the text declares, and the file recorded with that
package. -/
structure ScopePlaced (tree : SymbolTree) (path content : String) (T : SymbolTree)
    (scope : Nat) : Prop where
  adds : tree.AddsScopes T
  package : ∃ P, (T.get scope).parent = some P ∧ T.PackageAt P (declaredPackage content)
  files : T.files = tree.files.push (packageRecord path content (declaredPackage content))

/-- The scope a file declaring the package `names` goes below: the root when it declares
none, else the package at `names`, found or created. Getting there adds scopes only. -/
theorem packageScope_found {T : SymbolTree} (h : T.Shaped) (names : List String) :
    ScopeFound T (if names.isEmpty = true then (T, 0) else T.packagePath 0 names "package").1
        (if names.isEmpty = true then (T, 0) else T.packagePath 0 names "package").2 ∧
      T.AddsScopes (if names.isEmpty = true then (T, 0) else T.packagePath 0 names "package").1 ∧
      (if names.isEmpty = true then (T, 0) else T.packagePath 0 names "package").1.PackageAt
        (if names.isEmpty = true then (T, 0) else T.packagePath 0 names "package").2 names := by
  split
  · rename_i hn
    rw [List.isEmpty_iff.1 hn]
    exact ⟨⟨h, h.nonempty, rfl, fun _ hf => hf⟩, AddsScopes.refl T, .root⟩
  · exact ⟨h.packagePath h.nonempty names "package",
      packagePath_packageAt h .root h.nonempty names "package"⟩

/-- A file's scope, stored fresh and nested below a stored scope, when nothing lies in its
file yet: the nesting succeeds and the tree stays shaped. -/
theorem nest_fileScope {T : SymbolTree} (h : T.Shaped) {parent f : Nat} (hp : parent < T.size)
    (hfresh : T.FileFresh f) (hf : f < T.files.size) {s : Symbol} (hsp : s.parent = none)
    (hsc : s.children = #[]) (hsk : s.kind = .file) (hsf : s.file = some f) :
    (T.alloc s).1.nest parent T.size = .ok ((T.alloc s).1.link parent T.size) ∧
      ((T.alloc s).1.link parent T.size).Shaped := by
  have hold : (T.alloc s).1.get parent = T.get parent := by
    rw [get_alloc, if_neg (Nat.ne_of_lt hp)]
  have hnew : (T.alloc s).1.get T.size = s := by rw [get_alloc, if_pos rfl]
  -- the parent lies in no file, so no span check applies
  refine ⟨nest_eq_ok ⟨Nat.ne_of_lt hp, by rw [hnew, hsp], fun f' _ _ hpf hcf _ _ => ?_⟩,
    h.attach hp hsp hsc (fun f' hf' => ?_) (fun hacc => ?_) (fun f' _ _ hf' hpf _ _ => ?_)⟩
  · rw [hnew, hsf] at hcf
    cases hcf
    rw [hold] at hpf
    exact absurd hpf (hfresh parent)
  · rw [hsf] at hf'
    cases hf'
    exact hf
  · simp [hsk, SymbolClass.accepts] at hacc
  · rw [hsf] at hf'
    cases hf'
    exact absurd hpf (hfresh parent)

/-- A scan of a shaped tree is the declaration loop from where it starts, reached by adding
scopes only, followed by the file's scope adopting the declarations left waiting. -/
theorem scan_start_placed {tree : SymbolTree} (h : tree.Shaped) (path content : String) :
    ∃ (T : SymbolTree) (t : Overlay) (scope : Nat), LoopStart tree content T t scope ∧
      ScopePlaced tree path content T scope ∧
      Java.scan tree path content =
        (Java.declarations (t.size + 1) t
            { tree := T, file := tree.files.size, path, anonymous := 0, topLevel := [] }) >>=
          fun st => (st.topLevel.foldlM (fun tree (x : Nat × Nat) => tree.nest scope x.2)
            st.tree) >>= fun T' => pure (T', tree.files.size) := by
  unfold Java.scan
  extract_lets t₀ package names src record t₁ t₂
  have hview : t₂ = declarationView content := rfl
  have hnames : names = declaredPackage content := by
    simp only [names, package, declaredPackage, Option.map_map]
    rfl
  have hrecord : record = packageRecord path content names := rfl
  clear_value package names src record t₀ t₁ t₂
  subst hnames hrecord
  set names := declaredPackage content
  set record := packageRecord path content names
  have h₁ := h.addFile record
  have hfresh : (tree.addFile record).1.FileFresh tree.files.size := fun i => by
    rw [get_addFile]
    exact h.fileFresh i
  have hlt : tree.files.size < (tree.addFile record).1.files.size := by simp
  have hadds₁ := addsScopes_addFile tree record
  have hfiles₁ : (tree.addFile record).1.files = tree.files.push record := rfl
  rw [show tree.addFile record = ((tree.addFile record).1, tree.files.size) from rfl]
  dsimp only
  generalize (tree.addFile record).1 = T₁ at h₁ hfresh hlt hadds₁ hfiles₁
  -- the package the text declares, found or created
  obtain ⟨hfound, hpackage⟩ := packageScope_found h₁ names
  generalize (if names.isEmpty = true then (T₁, 0) else T₁.packagePath 0 names "package") = P
    at hfound hpackage
  obtain ⟨T₂, parent⟩ := P
  dsimp only at hfound hpackage ⊢
  set sym : Symbol :=
    { name := path, file := some tree.files.size, span := some ⟨0, content.utf8ByteSize⟩,
      kind := SymbolKind.file }
  simp only [alloc_snd]
  -- the file's scope, nested below the package
  have hfresh₂ := hfound.fresh _ hfresh
  obtain ⟨hnest, h₃⟩ := nest_fileScope hfound.shaped hfound.lt hfresh₂
    (by rw [hfound.files]; exact hlt) (s := sym) rfl rfl rfl rfl
  have hp : parent < (T₂.alloc sym).1.size := by simpa using Nat.lt_succ_of_lt hfound.lt
  have hc : T₂.size < (T₂.alloc sym).1.size := by simp
  have hnew : (T₂.alloc sym).1.get T₂.size = sym := by rw [get_alloc, if_pos rfl]
  rw [hnest]
  simp only [bind, Except.bind]
  have hkind₄ := kind_foldl_addImport
    (((T₂.alloc sym).1.link parent T₂.size).addImport T₂.size .rootPackages) T₂.size (importRules t₁)
  have hkeeps₄ : T₂.Keeps ((importRules t₁).foldl (fun tree r => tree.addImport T₂.size r)
      (((T₂.alloc sym).1.link parent T₂.size).addImport T₂.size .rootPackages)) :=
    (((keeps_alloc T₂ sym).link (Nat.le_refl _)).trans (keeps_addImport _ _ _)).trans
      (keeps_foldl _ _ (fun t r => keeps_addImport t _ r) _)
  obtain ⟨h₄, hs₄, hf₄, hsame₄⟩ :=
    foldl_addImport (h₃.addImport T₂.size .rootPackages) T₂.size (importRules t₁)
  generalize List.foldl _ _ (importRules t₁) = T₄ at h₄ hs₄ hf₄ hsame₄ hkind₄ hkeeps₄
  -- the scope as stored, and the symbols before it as they were
  have hget : ∀ i, ((T₂.alloc sym).1.link parent T₂.size).get i =
      { (T₂.alloc sym).1.get i with
        parent := if i = T₂.size then some parent else ((T₂.alloc sym).1.get i).parent
        children := if i = parent then ((T₂.alloc sym).1.get i).children.push T₂.size
          else ((T₂.alloc sym).1.get i).children } := get_link hp hc
  have hkind : (T₄.get T₂.size).kind = .file := by rw [hkind₄, kind_addImport, hget, hnew]
  refine ⟨T₄, t₂, T₂.size, ⟨hview, h₄, by rw [hs₄]; simp, hview ▸ size_declarationView content,
    hview ▸ onlyMasked_declarationView content, ?_, ?_, ?_, hkind, ?_, ?_⟩,
    ⟨?_, ⟨parent, ?_, hkeeps₄.packageAt hpackage.2⟩, ?_⟩, rfl⟩
  · rw [hf₄, files_addImport, files_link, files_alloc, hfound.files]
    exact hlt
  · rw [(hsame₄ _).file, (addImport_sameShape _ _ _ _).file, hget, hnew]
  · rw [(hsame₄ _).span, (addImport_sameShape _ _ _ _).span, hget, hnew]
  · rw [(hsame₄ _).children, (addImport_sameShape _ _ _ _).children, hget,
      if_neg (Nat.ne_of_gt hfound.lt), hnew]
  · intro i hi
    rw [(hsame₄ _).file, (addImport_sameShape _ _ _ _).file, hget, get_alloc,
      if_neg (Nat.ne_of_lt hi)]
    exact hfresh₂ i
  · -- past the packages only the file's scope is new
    refine hadds₁.trans (hpackage.1.trans ⟨hkeeps₄, fun i hi => ?_⟩)
    rcases Nat.lt_or_ge i (T₂.size + 1) with hlt' | hge
    · obtain rfl : i = T₂.size := by omega
      simp only [Symbol.isDeclaration, hkind]
    · rw [get_of_size_le (by rw [hs₄]; simpa using hge)]
      rfl
  · rw [(hsame₄ _).parent, (addImport_sameShape _ _ _ _).parent, hget, if_pos rfl]
  · rw [hf₄, files_addImport, files_link, files_alloc, hfound.files, hfiles₁]

/-- The shape of a scan after its loop starts: once the loop gives `st` and the file's scope
adopting what is left gives `T`, the scan gives `T` and the file. -/
theorem bind_adopt_ok {loop : Except BuildError FileScan}
    {adopt : FileScan → Except BuildError SymbolTree} {st : FileScan} {T : SymbolTree} (file : Nat)
    (hloop : loop = .ok st) (hadopt : adopt st = .ok T) :
    (loop >>= fun st => adopt st >>= fun T' => pure (T', file)) = .ok (T, file) := by
  rw [hloop]
  simp only [bind, Except.bind]
  rw [hadopt]
  rfl

/-- A scan of a shaped tree is the declaration loop from where it starts, followed by the
file's scope adopting the declarations left waiting. -/
theorem scan_start {tree : SymbolTree} (h : tree.Shaped) (path content : String) :
    ∃ (T : SymbolTree) (t : Overlay) (scope : Nat), LoopStart tree content T t scope ∧
      Java.scan tree path content =
        (Java.declarations (t.size + 1) t
            { tree := T, file := tree.files.size, path, anonymous := 0, topLevel := [] }) >>=
          fun st => (st.topLevel.foldlM (fun tree (x : Nat × Nat) => tree.nest scope x.2)
            st.tree) >>= fun T' => pure (T', tree.files.size) := by
  obtain ⟨T, t, scope, hs, -, heq⟩ := scan_start_placed h path content
  exact ⟨T, t, scope, hs, heq⟩

/-- Nothing waits where the loop starts. -/
theorem LoopStart.pending {tree T : SymbolTree} {content : String} {t : Overlay} {scope : Nat}
    (h : LoopStart tree content T t scope) (path : String) :
    Pending t.size scope { tree := T, file := tree.files.size, path, anonymous := 0, topLevel := [] } :=
  pending_start h.shaped path (by rw [h.size]; exact Nat.lt_succ_self _)
    h.file (by rw [h.span, h.view_size]) h.files

theorem scan_shaped {tree : SymbolTree} (h : tree.Shaped) (path content : String) :
    ∃ r, Java.scan tree path content = .ok r ∧ r.1.Shaped := by
  obtain ⟨T, t, scope, hs, heq⟩ := scan_start h path content
  -- the declarations, and last the file's scope adopting those left waiting
  obtain ⟨st, hdecl, hst⟩ := Pending.declarations (t.size + 1) t _ rfl (hs.pending path)
  obtain ⟨T', hfin, hT⟩ := hst.finish
  exact ⟨_, heq.trans (bind_adopt_ok _ hdecl hfin), hT⟩

end Java

end Lineage
