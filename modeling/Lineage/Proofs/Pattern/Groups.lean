import Lineage.Proofs.Pattern.Search
/-!
What a match records for a named group.

A compiled pattern saves where each group starts and stops into the two slots of the group's
name (`Pattern.groupSlot`). `Pattern.groupBodies g p` lists the patterns of the groups named
`g` in `p`; they lie apart when none of them holds another group named `g`
(`Pattern.GroupsApart`). Then the last of them that a run reads writes both slots of `g`,
and nothing read after it writes either, so at the end the two slots hold where one of them
was read (`Pattern.Captures.groupRead`). Every slot starts empty, hence the offsets a search
reports for a group bound a reading of one of the group's patterns
(`Program.searchAt_group`, `Program.mem_findAll_group`).
-/
namespace Lineage

namespace Pattern

/-- The patterns of the groups named `g` in a pattern, outermost first, then left to right. -/
def groupBodies (g : String) : Pattern → List Pattern
  | group h p => (if h = g then [p] else []) ++ p.groupBodies g
  | seq p q | alt p q => p.groupBodies g ++ q.groupBodies g
  | star p _ => p.groupBodies g
  | empty | chars _ | wordBoundary | lineStart | balanced _ _ _ => []

/-- No group named `g` lies inside another. -/
def GroupsApart (g : String) (p : Pattern) : Prop := ∀ q ∈ p.groupBodies g, q.groupBodies g = []

/-- A pattern with one group named `g`, which holds no other, keeps its groups `g` apart. -/
theorem groupsApart_single {p q : Pattern} {g : String} (h : p.groupBodies g = [q])
    (hq : q.groupBodies g = []) : GroupsApart g p := by
  intro r hr
  rw [h, List.mem_singleton] at hr
  exact hr ▸ hq

/-! ### Slots -/

theorem groupSlot_of_idxOf? {names : Array String} {g : String} {k : Nat}
    (h : names.idxOf? g = some k) : groupSlot names g = 2 * (k + 1) := by
  simp [groupSlot, h]

/-- A name among the names and any other name keep apart slots. -/
theorem groupSlot_ne {names : Array String} {g h : String} (hg : g ∈ names) (hne : h ≠ g) :
    groupSlot names h ≠ groupSlot names g := by
  have hg' : g ∈ names.toList := Array.mem_toList_iff.2 hg
  obtain ⟨k, hk⟩ := Option.ne_none_iff_exists'.1 fun hnone => List.idxOf?_eq_none_iff.1 hnone hg'
  obtain ⟨hklt, hkg, -⟩ := List.idxOf?_eq_some_iff.1 hk
  have hks : k < names.size := by simpa using hklt
  unfold groupSlot
  rw [idxOf?_eq_toList names g, hk, idxOf?_eq_toList names h]
  cases hh : names.toList.idxOf? h with
  | none =>
    simp only [Option.getD_some, Option.getD_none]
    omega
  | some k' =>
    -- the same place would hold both names
    obtain ⟨hk'lt, hkh, -⟩ := List.idxOf?_eq_some_iff.1 hh
    simp only [Option.getD_some]
    intro heq
    have hkk : k' = k := by omega
    subst hkk
    exact hne (hkh.symm.trans hkg)

/-- Two slots of one group and the two of another name never meet. -/
theorem groupSlot_apart {names : Array String} {g h : String} (hg : g ∈ names) (hne : h ≠ g)
    {j : Nat} (hj : j = groupSlot names g ∨ j = groupSlot names g + 1) :
    groupSlot names h ≠ j ∧ groupSlot names h + 1 ≠ j := by
  have hslot := groupSlot_ne hg hne
  have hh : ∃ x, groupSlot names h = 2 * x := ⟨_, rfl⟩
  have hg' : ∃ x, groupSlot names g = 2 * x := ⟨_, rfl⟩
  obtain ⟨x, hx⟩ := hh
  obtain ⟨y, hy⟩ := hg'
  omega

variable {text : ByteArray} {names : Array String} {g : String}

/-- A reading of a pattern with no group named `g` leaves both slots of `g` as they were. -/
theorem Captures.slots_of_groupBodies_nil {p : Pattern} {i j : Nat} {σ σ' : Array (Option Nat)}
    (h : Captures text names p i j σ σ') (hg : g ∈ names) (hp : p.groupBodies g = []) {k : Nat}
    (hk : k = groupSlot names g ∨ k = groupSlot names g + 1) : σ'[k]? = σ[k]? := by
  induction h with
  | seq _ _ ih₁ ih₂ =>
    obtain ⟨hp₁, hp₂⟩ := List.append_eq_nil_iff.1 hp
    rw [ih₂ hp₂, ih₁ hp₁]
  | starCons _ _ ih₁ ih₂ => rw [ih₂ hp, ih₁ hp]
  | altLeft _ ih => exact ih (List.append_eq_nil_iff.1 hp).1
  | altRight _ ih => exact ih (List.append_eq_nil_iff.1 hp).2
  | @group name _ _ _ _ _ _ ih =>
    obtain ⟨hname, hbody⟩ := List.append_eq_nil_iff.1 hp
    have hne : name ≠ g := fun he => by simp [he] at hname
    obtain ⟨h₁, h₂⟩ := groupSlot_apart hg hne hk
    rw [Array.getElem?_setIfInBounds, if_neg h₂, ih hbody, Array.getElem?_setIfInBounds,
      if_neg h₁]
  | _ => rfl

/-- The slots of `g` in `σ` hold offsets between which one of the patterns `L` reads the
text, unless one of them holds none. -/
def GroupRead (text : ByteArray) (names : Array String) (g : String) (L : List Pattern)
    (σ : Array (Option Nat)) : Prop :=
  ∀ a b, σ[groupSlot names g]? = some (some a) → σ[groupSlot names g + 1]? = some (some b) →
    ∃ q ∈ L, Matches text q a b

/-- A slot written by another name leaves what the slots of `g` hold. -/
theorem GroupRead.set {L : List Pattern} {σ : Array (Option Nat)} (h : GroupRead text names g L σ)
    {k : Nat} (hk : k ≠ groupSlot names g ∧ k ≠ groupSlot names g + 1) (x : Option Nat) :
    GroupRead text names g L (σ.setIfInBounds k x) := by
  intro a b ha hb
  rw [Array.getElem?_setIfInBounds, if_neg hk.1] at ha
  rw [Array.getElem?_setIfInBounds, if_neg hk.2] at hb
  exact h a b ha hb

/-- Reading a pattern whose groups named `g` lie apart and are among `L` keeps the slots of
`g` holding where one of `L` was read. -/
theorem Captures.groupRead {p : Pattern} {i j : Nat} {σ σ' : Array (Option Nat)}
    {L : List Pattern} (h : Captures text names p i j σ σ') (hg : g ∈ names)
    (hsub : p.groupBodies g ⊆ L) (hapart : GroupsApart g p) (hσ : GroupRead text names g L σ) :
    GroupRead text names g L σ' := by
  induction h with
  | seq _ _ ih₁ ih₂ =>
    refine ih₂ (fun q hq => hsub (List.mem_append_right _ hq))
      (fun q hq => hapart q (List.mem_append_right _ hq)) ?_
    exact ih₁ (fun q hq => hsub (List.mem_append_left _ hq))
      (fun q hq => hapart q (List.mem_append_left _ hq)) hσ
  | starCons _ _ ih₁ ih₂ => exact ih₂ hsub hapart (ih₁ hsub hapart hσ)
  | altLeft _ ih =>
    exact ih (fun q hq => hsub (List.mem_append_left _ hq))
      (fun q hq => hapart q (List.mem_append_left _ hq)) hσ
  | altRight _ ih =>
    exact ih (fun q hq => hsub (List.mem_append_right _ hq))
      (fun q hq => hapart q (List.mem_append_right _ hq)) hσ
  | @group name body i j σ σ' hbody ih =>
    by_cases hname : name = g
    · -- the group itself: nothing inside it writes its slots, so they hold where it was read
      subst hname
      have hmem : body ∈ (Pattern.group name body).groupBodies name := by simp [groupBodies]
      have hnil := hapart body hmem
      have hstart := hbody.slots_of_groupBodies_nil hg hnil (.inl rfl)
      intro a b ha hb
      rw [Array.getElem?_setIfInBounds, if_neg (by omega), hstart,
        Array.getElem?_setIfInBounds_self] at ha
      rw [Array.getElem?_setIfInBounds_self] at hb
      split at ha <;> split at hb <;> simp only [reduceCtorEq, Option.some.injEq] at ha hb
      subst ha hb
      exact ⟨body, hsub hmem, hbody.matches⟩
    · -- another name: its saves leave the slots of `g`
      have hrest : ∀ q ∈ body.groupBodies g, q ∈ (Pattern.group name body).groupBodies g :=
        fun q hq => by simp [groupBodies, hq]
      obtain ⟨h₁, h₂⟩ := groupSlot_apart hg hname (j := groupSlot names g) (.inl rfl)
      obtain ⟨h₃, h₄⟩ := groupSlot_apart hg hname (j := groupSlot names g + 1) (.inr rfl)
      refine (ih (fun q hq => hsub (hrest q hq)) (fun q hq => hapart q (hrest q hq))
        (hσ.set ⟨h₁, h₃⟩ _)).set ⟨h₂, h₄⟩ _
  | _ => exact hσ

end Pattern

/-- Where a named group of a match started and stopped, read off its slots. -/
theorem Match.group?_eq_some {m : Match} {g : String} {a b : Nat} (h : m.group? g = some (a, b)) :
    g ∈ m.groups ∧ m.slots[Pattern.groupSlot m.groups g]? = some (some a) ∧
      m.slots[Pattern.groupSlot m.groups g + 1]? = some (some b) := by
  unfold Match.group? at h
  split at h
  · rename_i k hk
    rw [Pattern.groupSlot_of_idxOf? hk]
    have hmem : g ∈ m.groups := by
      rw [Pattern.idxOf?_eq_toList] at hk
      obtain ⟨hlt, hget, -⟩ := List.idxOf?_eq_some_iff.1 hk
      exact Array.mem_toList_iff.1 (hget ▸ List.getElem_mem hlt)
    split at h
    · rename_i x y hx hy
      obtain ⟨rfl, rfl⟩ := Prod.mk.inj (Option.some.inj h)
      -- a slot read through `bind id` holds an offset
      have hslot : ∀ {o : Option (Option Nat)} {z : Nat}, o.bind id = some z → o = some (some z) :=
        fun {o} {z} hz => by cases o <;> simp_all
      exact ⟨hmem, hslot hx, hslot hy⟩
    · cases h
  · cases h

namespace Program

open Pattern

variable {p : Pattern} {text : ByteArray} {g : String}

/-- A run of a compiled pattern from its first instruction with every slot empty that accepts
holds, for a group named `g`, where one of the groups named `g` was read. -/
theorem compile_groupRead (hapart : GroupsApart g p) (hg : g ∈ p.compile.groups) {n : Nat}
    {t v : Thread} (h : Thread.Path p.compile.code text 0 p.compile.code.size n t v)
    (ht : t.pc = 0) (hempty : ∀ x ∈ t.slots, x = none)
    (hv : p.compile.code[v.pc]? = some .accept) :
    GroupRead text p.compile.groups g (p.groupBodies g) v.slots := by
  obtain ⟨stop, σ, hc, hσ⟩ := compile_captures p h ht hv
  have hslot : 2 ≤ groupSlot p.compile.groups g := by unfold groupSlot; omega
  -- every slot of a group starts empty, and the stop is recorded in slot `1`
  have hstart : GroupRead text p.compile.groups g (p.groupBodies g)
      (t.slots.setIfInBounds 0 (some t.pos)) := by
    intro a b ha _
    rw [Array.getElem?_setIfInBounds, if_neg (by omega)] at ha
    exact absurd (hempty _ (Array.mem_of_getElem? ha)) (by simp)
  rw [hσ]
  exact (hc.groupRead hg (fun _ hq => hq) hapart hstart).set ⟨by omega, by omega⟩ _

/-- A match tried from successive offsets holds, for a group named `g`, where one of the
groups named `g` was read. -/
theorem scanStarts_group (hapart : GroupsApart g p) (base fuel : Nat) :
    ∀ {count pos : Nat} {seen : Visited} {m : Match} {a b : Nat},
      p.compile.scanStarts text base fuel count pos seen = some m →
      m.group? g = some (a, b) → ∃ q ∈ p.groupBodies g, Matches text q a b
  | 0, _, _, _, _, _, h, _ => by simp [scanStarts] at h
  | count + 1, pos, seen, m, a, b, h, hab => by
    unfold scanStarts at h
    split at h
    · simp only at h
      split at h
      · rename_i res _ hrun
        obtain rfl := (Option.some.inj h).symm
        obtain ⟨hg, ha, hb⟩ := Match.group?_eq_some hab
        -- the run accepts at a thread reached from the first instruction
        obtain ⟨pc, pos', hacc, n, hpath⟩ :=
          run_reaches p.compile text base (p.compile.Reaches text pos _) reaches_step hrun
            (fun _ => ⟨0, .refl _⟩) trivial
        exact compile_groupRead hapart hg hpath rfl
          (fun x hx => (Array.mem_replicate.1 hx).2) hacc a b ha hb
      · exact scanStarts_group hapart base fuel h hab
    · exact scanStarts_group hapart base fuel h hab

/-- The offsets a search reports for a group named `g` bound a reading of one of the groups
named `g`, when no such group lies inside another. -/
theorem searchAt_group (hapart : GroupsApart g p) {pos : Nat} {m : Match}
    (h : p.compile.searchAt text pos = some m) {a b : Nat} (hab : m.group? g = some (a, b)) :
    ∃ q ∈ p.groupBodies g, Matches text q a b := by
  unfold searchAt at h
  split at h
  · cases h
  · exact scanStarts_group hapart _ _ h hab

theorem mem_findAll_group (hapart : GroupsApart g p) {m : Match}
    (h : m ∈ p.compile.findAll text) {a b : Nat} (hab : m.group? g = some (a, b)) :
    ∃ q ∈ p.groupBodies g, Matches text q a b := by
  suffices ∀ fuel pos, m ∈ findAll.go p.compile text fuel pos →
      ∃ q ∈ p.groupBodies g, Matches text q a b from this _ _ h
  intro fuel
  induction fuel with
  | zero => intro pos h; simp [findAll.go] at h
  | succ fuel ih =>
    intro pos h
    unfold findAll.go at h
    split at h
    · simp at h
    · rename_i m' hm'
      rcases List.mem_cons.1 h with rfl | h
      · exact searchAt_group hapart hm' hab
      · exact ih _ h

end Program

end Lineage
