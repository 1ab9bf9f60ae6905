import Lineage.Proofs.Scan.Nesting
/-!
How a Java type widens its members.

The scanner decides what a member's enclosing type implies only when the type adopts it: a
member of an interface becomes public unless it is private, and a method of it abstract
unless static or default; a member of another named type without an access level becomes
package-private; a method without return type named like its named type becomes a
constructor. Anonymous classes, methods and the file widen nothing. Since every declaration
waits without a parent until exactly one declaration adopts it, each member is widened once,
by the container it keeps (`MemberLaw`).

* `Modifiers.contains_insert`, `Modifiers.contains_ofList`: the modifier sets as sets;
* `widenMember_keeps`, `widenMember_public`, `widenMember_abstract`, `widenMember_access`,
  `widenMember_kind_method`: what widening does to one member;
* `adopt_fold_decl`: adoption widens its members and leaves every other symbol's name,
  modifiers and kind alone;
* `Pending.declarations_recorded`: what recording a declaration keeps, read against the
  declarations recorded so far (`recorded` lists them in order), the whole loop keeps;
* `Widened.insert`, `Widened.declarations`, `Widened.finish`: recording a declaration, the
  whole loop, and the file's scope adopting the rest keep `MemberLaw` for every recorded
  declaration;
* `java_members_widened`: every scan of a Java text into a shaped tree.
-/
namespace Lineage

/-! ### Modifier sets -/

theorem Modifier.eq_of_compare_eq {a b : Modifier} (h : Modifier.compare a b = .eq) : a = b := by
  cases a <;> cases b <;> simp_all [Modifier.compare, Modifier.rank]

namespace Modifiers

theorem mem_insertInto (m x : Modifier) :
    ∀ l : List Modifier, x ∈ insertInto m l ↔ x = m ∨ x ∈ l
  | [] => by simp [insertInto]
  | y :: l => by
    unfold insertInto
    split
    · simp
    · -- an equal modifier is there already
      rename_i h
      obtain rfl := Modifier.eq_of_compare_eq h
      simp only [List.mem_cons]
      constructor
      · exact .inr
      · rintro (rfl | h) <;> simp_all
    · simp only [List.mem_cons, mem_insertInto m x l]
      tauto

@[simp] theorem contains_insert (s : Modifiers) (m x : Modifier) :
    (s.insert m).contains x = (x == m || s.contains x) := by
  unfold insert contains
  rw [Bool.eq_iff_iff]
  simp [mem_insertInto]

theorem contains_ofList (ms : List Modifier) (x : Modifier) :
    (ofList ms).contains x = true ↔ x ∈ ms := by
  unfold ofList
  -- the fold adds the listed modifiers to what it started from
  suffices ∀ s : Modifiers, (ms.foldl insert s).contains x = true ↔ s.contains x = true ∨ x ∈ ms by
    rw [this]
    simp [empty, contains]
  induction ms with
  | nil => simp
  | cons m ms ih =>
    intro s
    rw [List.foldl_cons, ih, contains_insert]
    simp only [Bool.or_eq_true, beq_iff_eq, List.mem_cons]
    tauto

theorem hasAccess_insert_packageAccess (s : Modifiers) :
    (s.insert .packageAccess).hasAccess = true := by
  unfold hasAccess
  rw [List.any_eq_true]
  exact ⟨.packageAccess, (mem_insertInto _ _ _).2 (.inl rfl), rfl⟩

end Modifiers

/-- Two versions of a symbol with the same name, modifiers and kind: all that the laws of
widening read of a symbol. -/
structure Symbol.SameDecl (a b : Symbol) : Prop where
  name : a.name = b.name
  modifiers : a.modifiers = b.modifiers
  kind : a.kind = b.kind

theorem Symbol.SameDecl.refl (a : Symbol) : a.SameDecl a := ⟨rfl, rfl, rfl⟩

theorem Symbol.SameDecl.trans {a b c : Symbol} (hab : a.SameDecl b) (hbc : b.SameDecl c) :
    a.SameDecl c :=
  ⟨hab.name.trans hbc.name, hab.modifiers.trans hbc.modifiers, hab.kind.trans hbc.kind⟩

theorem SymbolTree.link_sameDecl {t : SymbolTree} {p c : Nat} (hp : p < t.size)
    (hc : c < t.size) (i : Nat) : ((t.link p c).get i).SameDecl (t.get i) := by
  rw [get_link hp hc]
  exact ⟨rfl, rfl, rfl⟩

namespace Java

open SymbolTree

/-! ### Widening one member -/

section Widen

variable {tree : SymbolTree} {m : Nat} {c tn : String}

/-- Widening keeps every modifier a member had. -/
theorem widenMember_keeps (hm : m < tree.size) {x : Modifier}
    (hx : (tree.get m).modifiers.contains x = true) :
    ((widenMember tree m (some c) tn).get m).modifiers.contains x = true := by
  unfold widenMember
  rw [get_modify _ hm, if_pos rfl]
  dsimp only
  split_ifs <;> simp [hx]

/-- Widening leaves a method a method, and anything else no method. -/
theorem widenMember_isMethod (hm : m < tree.size) :
    ((widenMember tree m (some c) tn).get m).methodInfo?.isSome =
      (tree.get m).methodInfo?.isSome := by
  unfold widenMember
  rw [get_modify _ hm, if_pos rfl]
  simp only [Symbol.methodInfo?]
  cases (tree.get m).kind with
  | method info =>
    by_cases hctor : (info.returnType.isNone && (tree.get m).name == tn) = true <;> simp [hctor]
  | _ => rfl

/-- A member of an interface that is not private is public. -/
theorem widenMember_public (hm : m < tree.size) (hc : c = "interface")
    (hp : ((widenMember tree m (some c) tn).get m).has .privateAccess = false) :
    ((widenMember tree m (some c) tn).get m).has .publicAccess = true := by
  unfold widenMember at hp ⊢
  rw [get_modify _ hm, if_pos rfl] at hp ⊢
  subst hc
  simp only [Symbol.has] at hp ⊢
  split_ifs at hp ⊢ <;> simp_all

/-- A method of an interface that is neither private, static nor default is abstract. -/
theorem widenMember_abstract (hm : m < tree.size) (hc : c = "interface")
    (hp : ((widenMember tree m (some c) tn).get m).has .privateAccess = false)
    (hmeth : ((widenMember tree m (some c) tn).get m).methodInfo?.isSome = true)
    (hs : ((widenMember tree m (some c) tn).get m).has .static = false)
    (hd : ((widenMember tree m (some c) tn).get m).has .default = false) :
    ((widenMember tree m (some c) tn).get m).has .abstract = true := by
  rw [widenMember_isMethod hm] at hmeth
  unfold widenMember at hp hs hd ⊢
  rw [get_modify _ hm, if_pos rfl] at hp hs hd ⊢
  subst hc
  simp only [Symbol.has] at hp hs hd ⊢
  split_ifs at hp hs hd ⊢ <;> simp_all

/-- A member of another named type has an access level. -/
theorem widenMember_access (hm : m < tree.size) (hc : c ≠ "interface") :
    ((widenMember tree m (some c) tn).get m).modifiers.hasAccess = true := by
  unfold widenMember
  rw [get_modify _ hm, if_pos rfl]
  dsimp only
  rw [if_neg (by simpa using hc)]
  split
  · assumption
  · exact Modifiers.hasAccess_insert_packageAccess _

/-- Widening makes a method a constructor when it has no return type and carries the
type's name. -/
theorem widenMember_kind_method (hm : m < tree.size) {info : MethodInfo}
    (hk : (tree.get m).kind = .method info) :
    ((widenMember tree m (some c) tn).get m).kind =
      .method { info with
        isConstructor := info.isConstructor || (info.returnType.isNone && (tree.get m).name == tn) } := by
  unfold widenMember
  rw [get_modify _ hm, if_pos rfl]
  simp only [hk]
  by_cases hctor : (info.returnType.isNone && (tree.get m).name == tn) = true
  · simp [hctor]
  · simp only [Bool.not_eq_true] at hctor
    simp [hctor]

/-- Widening changes the kind of nothing but a method. -/
theorem widenMember_kind_of_not_method (hm : m < tree.size)
    (hk : ∀ info, (tree.get m).kind ≠ .method info) :
    ((widenMember tree m (some c) tn).get m).kind = (tree.get m).kind := by
  unfold widenMember
  rw [get_modify _ hm, if_pos rfl]
  dsimp only
  split
  · rename_i info h
    exact absurd h (hk info)
  · rfl

end Widen

/-- Widening reads only a member's name, modifiers and kind. -/
theorem widenMember_sameDecl {t₁ t₂ : SymbolTree} {i : Nat} (h₁ : i < t₁.size)
    (h₂ : i < t₂.size) (hs : (t₁.get i).SameDecl (t₂.get i)) (construct : Option String)
    (tn : String) :
    ((widenMember t₁ i construct tn).get i).SameDecl ((widenMember t₂ i construct tn).get i) := by
  cases construct with
  | none => exact hs
  | some c =>
    unfold widenMember
    rw [get_modify _ h₁, get_modify _ h₂, if_pos rfl, if_pos rfl]
    obtain ⟨hn, hm, hk⟩ := hs
    exact ⟨by simp [hn], by simp [Symbol.methodInfo?, hm, hk], by simp [hn, hk]⟩

theorem widenMember_name (tree : SymbolTree) (m : Nat) (construct : Option String)
    (tn : String) : ((widenMember tree m construct tn).get m).name = (tree.get m).name :=
  (widenMember_sameShape tree m construct tn m).name

/-- A type stays the same type under any widening. -/
theorem widenMember_kind_type {tree : SymbolTree} {m : Nat} (hm : m < tree.size)
    {info : TypeInfo} (hk : (tree.get m).kind = .type info) (construct : Option String)
    (tn : String) : ((widenMember tree m construct tn).get m).kind = .type info := by
  cases construct with
  | none => exact hk
  | some c =>
    rw [widenMember_kind_of_not_method hm fun i h => by rw [hk] at h; cases h]
    exact hk

/-- Adoption widens each member and leaves the name, modifiers and kind of every other
symbol as they were. -/
theorem adopt_fold_decl {t : SymbolTree} (h : t.Linked) {p : Nat} (hp : p < t.size)
    {ms : List Nat} (ha : Adoptable t p ms) (construct : Option String) (typeName : String)
    {t' : SymbolTree} (hfold : ms.foldlM (adoptStep p construct typeName) t = .ok t') (i : Nat) :
    (t'.get i).SameDecl
      (if i ∈ ms then (widenMember t i construct typeName).get i else t.get i) := by
  induction ms generalizing t with
  | nil =>
    cases hfold
    exact Symbol.SameDecl.refl _
  | cons m ms ih =>
    obtain ⟨hstep, h₁⟩ := adoptStep_ok h hp ha construct typeName
    have hmt : m < t.size := ha.lt m List.mem_cons_self
    have hm1 : m ∉ ms := (List.nodup_cons.1 ha.nodup).1
    rw [List.foldlM_cons, hstep] at hfold
    have hrest := ih h₁.linked (by rw [h₁.size]; exact hp) (ha.tail h₁) hfold
    -- the first step widens `m` and links it: nothing else of a symbol changes
    have hlink : ∀ j, (((widenMember t m construct typeName).link p m).get j).SameDecl
        ((widenMember t m construct typeName).get j) :=
      link_sameDecl (by simpa using hp) (by simpa using hmt)
    by_cases him : i = m
    · subst him
      rw [if_neg hm1] at hrest
      rw [if_pos List.mem_cons_self]
      exact hrest.trans (hlink i)
    · have hother : (((widenMember t m construct typeName).link p m).get i).SameDecl (t.get i) := by
        refine (hlink i).trans ?_
        rw [get_widenMember_of_ne _ _ _ him]
        exact Symbol.SameDecl.refl _
      by_cases hi : i ∈ ms
      · rw [if_pos hi] at hrest
        rw [if_pos (List.mem_cons_of_mem _ hi)]
        have hit : i < t.size := ha.lt i (List.mem_cons_of_mem _ hi)
        exact hrest.trans (widenMember_sameDecl (by rw [h₁.size]; exact hit) hit hother _ _)
      · rw [if_neg hi] at hrest
        rw [if_neg (by simp [him, hi])]
        exact hrest.trans hother

/-! ### The law of every recorded declaration -/

/-- The declarations the loop records from the view `t`, in the order it records them:
what `declarations` finds with the same fuel. -/
def recorded : Nat → Overlay → List Decl
  | 0, _ => []
  | fuel + 1, t =>
    match nextDeclaration t with
    | some m => Decl.ofMatch t m :: recorded fuel (t.mask m.start m.stop)
    | none => if (t.maskAll blockProgram).2 then recorded fuel (t.maskAll blockProgram).1 else []

/-- The declarations a scan of `content` records, in the order it records them. -/
def scannedDecls (content : String) : List Decl :=
  recorded ((declarationView content).size + 1) (declarationView content)

/-- The declaration recorded as symbol `p`, the recorded declarations being `ds` from index
`base` on, is a named type. -/
def NamedAt (base : Nat) (ds : List Decl) (p : Nat) : Prop :=
  base ≤ p ∧ ∃ d, ds[p - base]? = some d ∧ d.keyword.isSome = true

/-- What the scan makes of the declaration `d` recorded as symbol `i`, the recorded
declarations being `ds` from index `base` on:

* it keeps every modifier written for it;
* it is a constructor exactly when it is a method without return type whose container is
  a named type of its name;
* as a member of an interface, it is public unless private, and as a method then also
  abstract unless static or default;
* as a member of another named type, it has an access level. -/
structure MemberLaw (t : SymbolTree) (base : Nat) (ds : List Decl) (i : Nat) (d : Decl) :
    Prop where
  keeps : ∀ x ∈ d.modifiers, (t.get i).has (modifierOf x) = true
  ctor : ∀ info, (t.get i).kind = .method info → (info.isConstructor = true ↔
    ∃ p, (t.get i).parent = some p ∧ NamedAt base ds p ∧ info.returnType = none ∧
      (t.get i).name = (t.get p).name)
  publicMember : ∀ p, (t.get i).parent = some p → NamedAt base ds p →
    (t.get p).construct = "interface" → (t.get i).has .privateAccess = false →
    (t.get i).has .publicAccess = true
  abstractMethod : ∀ p, (t.get i).parent = some p → NamedAt base ds p →
    (t.get p).construct = "interface" → (t.get i).has .privateAccess = false →
    (t.get i).methodInfo?.isSome = true → (t.get i).has .static = false →
    (t.get i).has .default = false → (t.get i).has .abstract = true
  accessLevel : ∀ p, (t.get i).parent = some p → NamedAt base ds p →
    (t.get p).construct ≠ "interface" → (t.get i).modifiers.hasAccess = true

/-- The law carries over to a tree where the symbol keeps its parent, name, modifiers and
kind, and its parent its name and named-ness, and the kind of a named parent. -/
theorem MemberLaw.transfer {t t' : SymbolTree} {base : Nat} {ds ds' : List Decl} {i : Nat}
    {d : Decl} (h : MemberLaw t base ds i d) (hs : (t'.get i).SameDecl (t.get i))
    (hpar : (t'.get i).parent = (t.get i).parent)
    (hp : ∀ p, (t.get i).parent = some p → (t'.get p).name = (t.get p).name ∧
      (NamedAt base ds' p ↔ NamedAt base ds p) ∧
      (NamedAt base ds p → (t'.get p).kind = (t.get p).kind)) :
    MemberLaw t' base ds' i d := by
  have hhas : ∀ x, (t'.get i).has x = (t.get i).has x := fun x => by
    simp only [Symbol.has, hs.modifiers]
  have hmeth : (t'.get i).methodInfo? = (t.get i).methodInfo? := by
    simp only [Symbol.methodInfo?, hs.kind]
  have hcons : ∀ p, (t.get i).parent = some p → NamedAt base ds p →
      (t'.get p).construct = (t.get p).construct := fun p hpp hn => by
    simp only [Symbol.construct, ((hp p hpp).2.2 hn)]
  refine ⟨fun x hx => by rw [hhas]; exact h.keeps x hx, fun info hk => ?_,
    fun p hpp hn hc hpriv => ?_, fun p hpp hn hc hpriv hm hst hdf => ?_,
    fun p hpp hn hc => ?_⟩
  · rw [hs.kind] at hk
    rw [h.ctor info hk, hpar, hs.name]
    constructor
    · rintro ⟨p, hpp, hn, hrt, hname⟩
      exact ⟨p, hpp, (hp p hpp).2.1.2 hn, hrt, hname.trans (hp p hpp).1.symm⟩
    · rintro ⟨p, hpp, hn, hrt, hname⟩
      exact ⟨p, hpp, (hp p hpp).2.1.1 hn, hrt, hname.trans (hp p hpp).1⟩
  all_goals rw [hpar] at hpp
  all_goals have hn' := (hp p hpp).2.1.1 hn
  · rw [hhas] at hpriv ⊢
    exact h.publicMember p hpp hn' (by rwa [← hcons p hpp hn']) hpriv
  · rw [hhas] at hpriv hst hdf ⊢
    rw [hmeth] at hm
    exact h.abstractMethod p hpp hn' (by rwa [← hcons p hpp hn']) hpriv hm hst hdf
  · rw [hs.modifiers]
    exact h.accessLevel p hpp hn' (by rwa [← hcons p hpp hn'])

/-- A declaration without a parent keeps the law when it moves below a scope that is not a
named type, widened by nothing. -/
theorem MemberLaw.adopt_unnamed {t t' : SymbolTree} {base : Nat} {ds ds' : List Decl}
    {i p : Nat} {d : Decl} (h : MemberLaw t base ds i d) (hfree : (t.get i).parent = none)
    (hs : (t'.get i).SameDecl (t.get i)) (hpar : (t'.get i).parent = some p)
    (hp : ¬ NamedAt base ds' p) : MemberLaw t' base ds' i d := by
  refine ⟨fun x hx => ?_, fun info hk => ?_, fun q hq hn => ?_, fun q hq hn => ?_,
    fun q hq hn => ?_⟩
  · simp only [Symbol.has, hs.modifiers]
    exact h.keeps x hx
  · -- it was no constructor, and it is still none
    rw [hs.kind] at hk
    have hflag : info.isConstructor = false := by
      cases hc : info.isConstructor
      · rfl
      · obtain ⟨q, hq, -⟩ := (h.ctor info hk).1 hc
        rw [hfree] at hq
        cases hq
    rw [hflag]
    simp only [Bool.false_eq_true, false_iff, not_exists, not_and]
    intro q hq hn
    rw [hpar] at hq
    cases hq
    exact absurd hn hp
  all_goals
    rw [hpar] at hq
    cases hq
    exact absurd hn hp

/-- A declaration just stored, without a parent, with the modifiers written for it and no
constructor flag, obeys the law. -/
theorem MemberLaw.fresh {t : SymbolTree} {base : Nat} {ds : List Decl} {i : Nat} {d : Decl}
    (hfree : (t.get i).parent = none)
    (hmods : (t.get i).modifiers = Modifiers.ofList (d.modifiers.map modifierOf))
    (hctor : ∀ info, (t.get i).kind = .method info → info.isConstructor = false) :
    MemberLaw t base ds i d := by
  refine ⟨fun x hx => ?_, fun info hk => ?_, fun p hp => ?_, fun p hp => ?_, fun p hp => ?_⟩
  · rw [Symbol.has, hmods, Modifiers.contains_ofList]
    exact List.mem_map_of_mem hx
  · rw [hctor info hk, hfree]
    simp
  all_goals
    rw [hfree] at hp
    cases hp

/-- A declaration without a parent obeys the law once a named type `p` adopts it, widened
with `p`'s keyword and name. -/
theorem MemberLaw.adopt_named {t t' : SymbolTree} {base : Nat} {ds ds' : List Decl}
    {i p : Nat} {d : Decl} {c tn : String} (h : MemberLaw t base ds i d) (hi : i < t.size)
    (hfree : (t.get i).parent = none)
    (hs : (t'.get i).SameDecl ((widenMember t i (some c) tn).get i))
    (hpar : (t'.get i).parent = some p) (hn : NamedAt base ds' p)
    (hpc : (t'.get p).construct = c) (hpn : (t'.get p).name = tn) :
    MemberLaw t' base ds' i d := by
  have hhas : ∀ x, (t'.get i).has x = ((widenMember t i (some c) tn).get i).has x := fun x => by
    simp only [Symbol.has, hs.modifiers]
  refine ⟨fun x hx => ?_, fun info hk => ?_, fun q hq _ hc hpriv => ?_,
    fun q hq _ hc hpriv hm hst hdf => ?_, fun q hq _ hc => ?_⟩
  · rw [hhas]
    exact widenMember_keeps hi (h.keeps x hx)
  · rw [hs.kind] at hk
    -- only a method is widened into a method, and it was no constructor before
    cases hk₀ : (t.get i).kind with
    | method info₀ =>
      rw [widenMember_kind_method hi hk₀] at hk
      cases hk
      have hflag : info₀.isConstructor = false := by
        cases hc : info₀.isConstructor
        · rfl
        · obtain ⟨q, hq, -⟩ := (h.ctor info₀ hk₀).1 hc
          rw [hfree] at hq
          cases hq
      simp only [hflag, Bool.false_or, Bool.and_eq_true, Option.isNone_iff_eq_none, beq_iff_eq]
      constructor
      · rintro ⟨hrt, hname⟩
        exact ⟨p, hpar, hn, hrt, by rw [hs.name, widenMember_name, hname, hpn]⟩
      · rintro ⟨q, hq, -, hrt, hname⟩
        rw [hpar] at hq
        cases hq
        exact ⟨hrt, by rw [← hpn, ← hname, hs.name, widenMember_name]⟩
    | _ =>
      rw [widenMember_kind_of_not_method hi (fun _ h => by rw [hk₀] at h; cases h), hk₀] at hk
      cases hk
  all_goals
    rw [hpar] at hq
    cases hq
  · rw [hhas] at hpriv ⊢
    exact widenMember_public hi (hpc.symm.trans hc) hpriv
  · rw [hhas] at hpriv hst hdf ⊢
    have hm' : ((widenMember t i (some c) tn).get i).methodInfo?.isSome = true := by
      simpa only [Symbol.methodInfo?, hs.kind] using hm
    exact widenMember_abstract hi (hpc.symm.trans hc) hpriv hm' hst hdf
  · rw [hs.modifiers]
    exact widenMember_access hi (fun h' => hc (hpc.trans h'))

theorem namedAt_append {base : Nat} {ds : List Decl} (d : Decl) {p : Nat}
    (hp : p < base + ds.length) : NamedAt base (ds ++ [d]) p ↔ NamedAt base ds p := by
  unfold NamedAt
  constructor
  · rintro ⟨hb, e, he, hk⟩
    exact ⟨hb, e, by rwa [List.getElem?_append_left (by omega)] at he, hk⟩
  · rintro ⟨hb, e, he, hk⟩
    exact ⟨hb, e, by rwa [List.getElem?_append_left (by omega)], hk⟩

theorem namedAt_last {base : Nat} {ds : List Decl} (d : Decl) :
    NamedAt base (ds ++ [d]) (base + ds.length) ↔ d.keyword.isSome = true := by
  simp [NamedAt]

theorem not_namedAt_of_lt {base : Nat} {ds : List Decl} {p : Nat} (hp : p < base) :
    ¬ NamedAt base ds p :=
  fun h => absurd h.1 (Nat.not_le_of_lt hp)

/-! ### The loop -/

/-- What the declaration loop keeps about the declarations `ds` recorded so far, stored as
the symbols from `base` on: each obeys `MemberLaw`, and a named type is stored as a type of
its keyword. -/
structure Widened (base : Nat) (ds : List Decl) (st : FileScan) : Prop where
  size : st.tree.size = base + ds.length
  law : ∀ k (hk : k < ds.length), MemberLaw st.tree base ds (base + k) ds[k]
  named : ∀ k d c, ds[k]? = some d → d.keyword = some c →
    ∃ info, (st.tree.get (base + k)).kind = .type info ∧ info.construct = c

/-- Recording a declaration keeps `Widened`: the new one is fresh, those it adopts are
widened by it, and every other keeps what it had. -/
theorem Widened.insert {n scope : Nat} {ds : List Decl} {st st' : FileScan}
    (hw : Widened (scope + 1) ds st) (hp : Pending n scope st) (d : Decl)
    (hins : insert st d = .ok st') : Widened (scope + 1) (ds ++ [d]) st' := by
  obtain ⟨s, anon, heq, hsp, hsc, hsf, hss, -, hmods, hctor, hnamed, -⟩ := insert_decl st d
  have ha := hp.adoptable hss anon
  have hlinked : (st.tree.alloc s).1.Linked := hp.linked.alloc hsp hsc fun f hf => by
    rw [hsf] at hf
    cases hf
    exact hp.file_lt
  obtain ⟨t', hfold, hadopt⟩ := adopt_fold hlinked (by simp) ha d.keyword
    ((st.tree.alloc s).1.get st.tree.size).name
  obtain ⟨top, hok, -⟩ := @adoptMembers_ok { st with tree := (st.tree.alloc s).1, anonymous := anon }
    st.tree.size d.span d.keyword t' hfold
  rw [heq, hok] at hins
  cases hins
  have hdecl := adopt_fold_decl hlinked (by simp) ha d.keyword _ hfold
  set A := adoptees { st with tree := (st.tree.alloc s).1, anonymous := anon } d.span with hA
  have hsub : ∀ i ∈ A, i ∈ st.waiting := fun i hi =>
    (adoptees_sublist { st with tree := (st.tree.alloc s).1, anonymous := anon } d.span).subset hi
  have hnewA : st.tree.size ∉ A := fun hm => ha.ne _ hm rfl
  have hnew : (st.tree.alloc s).1.get st.tree.size = s := by rw [get_alloc, if_pos rfl]
  have hold : ∀ i, i < st.tree.size → (st.tree.alloc s).1.get i = st.tree.get i := fun i hi => by
    rw [get_alloc, if_neg (Nat.ne_of_lt hi)]
  have hsize := hw.size
  -- every old symbol keeps its name, and a named one its kind
  have hname : ∀ p, p < st.tree.size → (t'.get p).name = (st.tree.get p).name := fun p hp' => by
    rw [(hdecl p).name]
    split
    · rw [widenMember_name, hold p hp']
    · rw [hold p hp']
  have htype : ∀ p info, p < st.tree.size → (st.tree.get p).kind = .type info →
      (t'.get p).kind = .type info := fun p info hp' hk => by
    rw [(hdecl p).kind]
    split
    · exact widenMember_kind_type (by simpa using Nat.lt_succ_of_lt hp') (by rw [hold p hp', hk]) _ _
    · rw [hold p hp', hk]
  refine ⟨by rw [hadopt.size]; simp [hsize]; omega, fun k hk => ?_, fun k e c he hc => ?_⟩
  · rw [List.length_append, List.length_singleton] at hk
    rcases Nat.lt_succ_iff_lt_or_eq.1 hk with hk | rfl
    · -- a declaration recorded before
      rw [List.getElem_append_left hk]
      have hi : scope + 1 + k < st.tree.size := by omega
      have hlaw := hw.law k hk
      by_cases hiA : scope + 1 + k ∈ A
      · have hfree := (hp.waiting _ (hsub _ hiA)).free
        have hpar : (t'.get (scope + 1 + k)).parent = some st.tree.size := by
          rw [hadopt.parent, if_pos hiA]
        have hs := hdecl (scope + 1 + k)
        rw [if_pos hiA] at hs
        cases hkw : d.keyword with
        | none =>
          rw [hkw] at hs
          refine hlaw.adopt_unnamed hfree (hs.trans ?_) hpar ?_
          · rw [widenMember, hold _ hi]
            exact Symbol.SameDecl.refl _
          · rw [hsize, namedAt_last, hkw]
            simp
        | some c =>
          rw [hkw] at hs
          obtain ⟨info, hsk, hcon⟩ := hnamed c hkw
          have hlaw₀ : MemberLaw (st.tree.alloc s).1 (scope + 1) ds (scope + 1 + k) ds[k] :=
            hlaw.transfer (by rw [hold _ hi]; exact Symbol.SameDecl.refl _)
              (by rw [hold _ hi]) fun q hq => by
                have hq' := hp.linked.parent_lt hq
                exact ⟨by rw [hold q hq'], Iff.rfl, fun _ => by rw [hold q hq']⟩
          refine hlaw₀.adopt_named (by simpa using Nat.lt_succ_of_lt hi)
            (by rw [hold _ hi]; exact hfree) hs hpar ?_ ?_ ?_
          · rw [hsize, namedAt_last, hkw]
            rfl
          · rw [Symbol.construct, (hdecl _).kind, if_neg hnewA, hnew, hsk]
            exact hcon
          · rw [(hdecl _).name, if_neg hnewA]
      · refine hlaw.transfer ?_ ?_ fun q hq => ?_
        · rw [← hold _ hi]
          have hs := hdecl (scope + 1 + k)
          rwa [if_neg hiA] at hs
        · rw [hadopt.parent, if_neg hiA, hold _ hi]
        · have hq' := hp.linked.parent_lt hq
          refine ⟨hname q hq', namedAt_append d (by omega), fun hnq => ?_⟩
          obtain ⟨hbase, e, he, hke⟩ := hnq
          obtain ⟨c, hc⟩ := Option.isSome_iff_exists.1 hke
          obtain ⟨info, hinfo, -⟩ := hw.named (q - (scope + 1)) e c he hc
          rw [Nat.add_sub_cancel' hbase] at hinfo
          rw [htype q info hq' hinfo, hinfo]
    · -- the declaration just recorded
      rw [List.getElem_append_right (by omega)]
      simp only [Nat.sub_self, List.getElem_cons_zero]
      have hs := hdecl (scope + 1 + ds.length)
      rw [← hsize, if_neg hnewA, hnew] at hs
      rw [← hsize]
      refine MemberLaw.fresh ?_ (by rw [hs.modifiers, hmods]) fun info hk => hctor info (hs.kind ▸ hk)
      rw [hadopt.parent, if_neg hnewA, hnew, hsp]
  · rw [List.getElem?_append] at he
    split at he
    · obtain ⟨info, hinfo, hcon⟩ := hw.named k e c he hc
      exact ⟨info, htype _ info (by omega) hinfo, hcon⟩
    · rename_i hk
      have hk' : k = ds.length := by
        have := List.getElem?_eq_some_iff.1 he
        simp at this
        omega
      subst hk'
      simp only [Nat.sub_self, List.getElem?_cons_zero, Option.some.injEq] at he
      subst he
      obtain ⟨info, hsk, hcon⟩ := hnamed c hc
      refine ⟨info, ?_, hcon⟩
      rw [← hsize, (hdecl _).kind, if_neg hnewA, hnew, hsk]

/-- What recording a declaration keeps along with `Pending`, read against the declarations
recorded so far, the declaration loop keeps over the declarations it records. The property
reads the declarations the rest of the loop records, so this is its own induction on the fuel
and not a case of `Pending.declarations_run`. -/
theorem Pending.declarations_recorded {n scope : Nat} (Q : List Decl → FileScan → Prop)
    (hstep : ∀ ds st st' d, Pending n scope st → Q ds st → Java.insert st d = .ok st' →
      Q (ds ++ [d]) st') :
    ∀ (fuel : Nat) (t : Overlay) (st : FileScan) (ds : List Decl), t.size = n →
      Pending n scope st → Q ds st →
      ∃ st', Java.declarations fuel t st = .ok st' ∧ Pending n scope st' ∧
        Q (ds ++ Java.recorded fuel t) st'
  | 0, _, st, ds, _, hp, hq =>
    ⟨st, rfl, hp, by rw [show Java.recorded 0 _ = [] from rfl, List.append_nil]; exact hq⟩
  | fuel + 1, t, st, ds, ht, hp, hq => by
    unfold Java.declarations
    split
    · rename_i m hm
      have hrec : Java.recorded (fuel + 1) t =
          Decl.ofMatch t m :: Java.recorded fuel (t.mask m.start m.stop) := by
        rw [Java.recorded.eq_def]
        simp only [hm]
      obtain ⟨st₁, hins, hp₁⟩ := hp.insert _ (ht ▸ stop_le_of_nextDeclaration hm)
      obtain ⟨st', hrun, hp', hq'⟩ := Pending.declarations_recorded Q hstep fuel
        (t.mask m.start m.stop) st₁ _ (by rw [Overlay.size_mask, ht]) hp₁ (hstep _ _ _ _ hp hq hins)
      refine ⟨st', by simpa only [hins, bind, Except.bind] using hrun, hp', ?_⟩
      rw [hrec]
      simpa using hq'
    · -- no declaration is left: blocks are masked, or the loop stops
      rename_i hm
      have hrec : Java.recorded (fuel + 1) t = if (t.maskAll blockProgram).2 then
          Java.recorded fuel (t.maskAll blockProgram).1 else [] := by
        rw [Java.recorded.eq_def]
        simp only [hm]
      rw [hrec]
      rcases hmask : t.maskAll blockProgram with ⟨t', changed⟩
      have ht' : t'.size = n := by
        rw [← ht, ← Overlay.size_maskAll t blockProgram, hmask]
      cases changed with
      | true => exact Pending.declarations_recorded Q hstep fuel t' st ds ht' hp hq
      | false => exact ⟨st, rfl, hp, by simpa using hq⟩

/-- The declaration loop keeps `Widened` over what it records. -/
theorem Widened.declarations {n scope : Nat} (fuel : Nat) (t : Overlay) (st : FileScan)
    (ds : List Decl) (ht : t.size = n) (hp : Pending n scope st) (hw : Widened (scope + 1) ds st) :
    ∃ st', Java.declarations fuel t st = .ok st' ∧ Pending n scope st' ∧
      Widened (scope + 1) (ds ++ recorded fuel t) st' :=
  Pending.declarations_recorded (Widened (scope + 1))
    (fun _ _ _ d hp hw hins => hw.insert hp d hins) fuel t st ds ht hp hw

/-- The file's scope adopting the declarations left waiting keeps the law of every recorded
declaration: the scope is no named type, so it widens nothing. -/
theorem Widened.finish {n scope : Nat} {ds : List Decl} {st : FileScan}
    (hp : Pending n scope st) (hw : Widened (scope + 1) ds st) :
    ∃ T, st.topLevel.foldlM (fun tree (x : Nat × Nat) => tree.nest scope x.2) st.tree = .ok T ∧
      T.size = scope + 1 + ds.length ∧
      ∀ k (hk : k < ds.length), MemberLaw T (scope + 1) ds (scope + 1 + k) ds[k] := by
  have ha := hp.adoptable_scope
  obtain ⟨T, hfold, hadopt⟩ := adopt_fold hp.linked hp.scope_lt ha none ""
  have hdecl := adopt_fold_decl hp.linked hp.scope_lt ha none "" hfold
  rw [FileScan.waiting, List.foldlM_map] at hfold
  -- adopting with no keyword widens nothing
  have hsame : ∀ i, (T.get i).SameDecl (st.tree.get i) := fun i => by
    have := hdecl i
    split at this <;> exact this
  refine ⟨T, hfold, by rw [hadopt.size, hw.size], fun k hk => ?_⟩
  by_cases hwait : scope + 1 + k ∈ st.waiting
  · refine (hw.law k hk).adopt_unnamed (hp.waiting _ hwait).free (hsame _) ?_
      (not_namedAt_of_lt (Nat.lt_succ_self scope))
    rw [hadopt.parent, if_pos hwait]
  · exact (hw.law k hk).transfer (hsame _) (by rw [hadopt.parent, if_neg hwait]) fun q _ =>
      ⟨(hsame q).name, Iff.rfl, fun _ => (hsame q).kind⟩

end Java

open Java

/-- A scan of a Java text into a shaped tree succeeds and stores the declarations it records,
`scannedDecls`, as the symbols after the file's scope, in order. Each of them keeps every
modifier written for it; a method is a constructor exactly when it has no return type and
its container is a named type (a class, interface, enum or record, not an anonymous class)
of its name; a direct member of an interface is public unless it is private, and a method
among them is then abstract unless static or default; a direct member of another named type
has an access level. -/
theorem java_members_widened {tree : SymbolTree} (h : tree.Shaped) (path content : String) :
    ∃ T scope, Java.scan tree path content = .ok (T, tree.files.size) ∧
      T.size = scope + 1 + (scannedDecls content).length ∧
      ∀ k (hk : k < (scannedDecls content).length),
        MemberLaw T (scope + 1) (scannedDecls content) (scope + 1 + k) (scannedDecls content)[k] := by
  obtain ⟨T, t, scope, hs, heq⟩ := scan_start h path content
  have hw₀ : Widened (scope + 1) []
      { tree := T, file := tree.files.size, path, anonymous := 0, topLevel := [] } :=
    ⟨by simpa using hs.size, fun k hk => absurd hk (Nat.not_lt_zero k), fun k d c hd => by simp at hd⟩
  obtain ⟨st, hdecl, hst, hw⟩ := Widened.declarations (t.size + 1) t _ [] rfl (hs.pending path) hw₀
  obtain ⟨T', hfin, hsize, hlaw⟩ := Widened.finish hst hw
  have hds : scannedDecls content = recorded (t.size + 1) t := by rw [scannedDecls, hs.view]
  rw [List.nil_append] at hsize hlaw
  refine ⟨T', scope, ?_, by rw [hds]; exact hsize, fun k hk => ?_⟩
  · rw [heq]
    exact bind_adopt_ok _ hdecl hfin
  · simp only [hds] at hk ⊢
    exact hlaw k hk

/-- An interface with a method, read into a new tree. -/
theorem shop_members_widened :
    (SymbolTree.new "shop" "java").Shaped ∧
    ∃ T scope, Java.scan (SymbolTree.new "shop" "java") "Shop.java"
        "interface Shop \x7b void pay(); \x7d" = .ok (T, (SymbolTree.new "shop" "java").files.size) ∧
      T.size = scope + 1 + (scannedDecls "interface Shop \x7b void pay(); \x7d").length ∧
      ∀ k (hk : k < (scannedDecls "interface Shop \x7b void pay(); \x7d").length),
        MemberLaw T (scope + 1) (scannedDecls "interface Shop \x7b void pay(); \x7d") (scope + 1 + k)
          (scannedDecls "interface Shop \x7b void pay(); \x7d")[k] :=
  ⟨SymbolTree.shaped_new "shop" "java",
    java_members_widened (SymbolTree.shaped_new "shop" "java") _ _⟩

end Lineage
