import Lineage.Pattern.Basic
/-!
What a character set holds.

A set is a table of ranges, and membership is found by halving the table. Halving finds
only code points that some range of the table holds (`Ranges.contains_sound`), so a set
holds no more than its ranges say. `CharSet.Sub s P` says that every code point of every
range of `s` satisfies `P`; it passes through the ways sets are built (from ranges, where
touching ranges are joined, from strings, by union), and `CharSet.Sub.mem` turns it into a
fact about every character the set holds.

On a table whose ranges ascend without touching (`Ranges.Ascending`), halving finds every
code point of every range as well (`Ranges.contains_iff`): a range the search passes over
lies wholly below or above the code point.
-/
namespace Lineage

namespace Ranges

theorem containsIn_sound {table : Array (Nat × Nat)} {n lo hi : Nat}
    (h : containsIn table n lo hi = true) : ∃ r ∈ table, r.1 ≤ n ∧ n ≤ r.2 := by
  fun_induction containsIn table n lo hi with
  | case1 lo hi hlt mid a b hmid hna ih => exact ih h
  | case2 lo hi hlt mid a b hmid hna hbn ih => exact ih h
  | case3 lo hi hlt mid a b hmid hna hbn =>
    exact ⟨(a, b), Array.mem_of_getElem? hmid, by omega, by omega⟩
  | case4 => simp at h
  | case5 => simp at h

/-- A code point the table is found to contain lies in one of its ranges. -/
theorem contains_sound {table : Array (Nat × Nat)} {n : Nat} (h : contains table n = true) :
    ∃ r ∈ table, r.1 ≤ n ∧ n ≤ r.2 :=
  containsIn_sound h

/-- A table of ranges in ascending order: each range is in order, and ends before the next
range starts. -/
def Ascending (table : Array (Nat × Nat)) : Prop :=
  (∀ r ∈ table, r.1 ≤ r.2) ∧ table.toList.Pairwise fun r s => r.2 < s.1

instance (table : Array (Nat × Nat)) : Decidable (Ascending table) :=
  inferInstanceAs (Decidable (_ ∧ _))

/-- In an ascending table, of two ranges the one at the lower index lies wholly below. -/
theorem Ascending.lt {table : Array (Nat × Nat)} (h : Ascending table) {i j : Nat} {r s : Nat × Nat}
    (hij : i < j) (hr : table[i]? = some r) (hs : table[j]? = some s) : r.2 < s.1 := by
  obtain ⟨hi, rfl⟩ := Array.getElem?_eq_some_iff.1 hr
  obtain ⟨hj, rfl⟩ := Array.getElem?_eq_some_iff.1 hs
  exact List.pairwise_iff_getElem.1 h.2 i j (by simpa using hi) (by simpa using hj) hij

/-- Halving a window of an ascending table finds every code point of the ranges in it. -/
theorem containsIn_complete {table : Array (Nat × Nat)} (h : Ascending table) {n k : Nat}
    {r : Nat × Nat} (hk : table[k]? = some r) (h1 : r.1 ≤ n) (h2 : n ≤ r.2) :
    ∀ {lo hi : Nat}, hi ≤ table.size → lo ≤ k → k < hi → containsIn table n lo hi = true := by
  intro lo hi
  fun_induction containsIn table n lo hi with
  | case1 lo hi hlt mid a b hmid hna ih =>
    -- the range at `mid` starts above `n`, and so does every later one
    intro hsize hlo hhi
    refine ih (by omega) hlo ?_
    rcases Nat.lt_or_ge k mid with hkm | hle
    · exact hkm
    · rcases Nat.lt_or_ge mid k with hmk | hge
      · have hab := h.1 (a, b) (Array.mem_of_getElem? hmid)
        have := h.lt hmk hmid hk
        simp only at hab this
        omega
      · obtain rfl : mid = k := by omega
        rw [hmid, Option.some_inj] at hk
        subst hk
        simp only at h1
        omega
  | case2 lo hi hlt mid a b hmid hna hbn ih =>
    -- the range at `mid` ends below `n`, and so does every earlier one
    intro hsize hlo hhi
    refine ih hsize ?_ hhi
    rcases Nat.lt_or_ge mid k with hmk | hle
    · exact hmk
    · rcases Nat.lt_or_ge k mid with hkm | hge
      · have hrr := h.1 r (Array.mem_of_getElem? hk)
        have := h.lt hkm hk hmid
        simp only at this
        omega
      · obtain rfl : mid = k := by omega
        rw [hmid, Option.some_inj] at hk
        subst hk
        simp only at h2
        omega
  | case3 => intro _ _ _; rfl
  | case4 lo hi hlt mid hmid =>
    -- the window lies in the table, so its middle holds a range
    intro hsize hlo hhi
    rw [Array.getElem?_eq_none_iff] at hmid
    omega
  | case5 lo hi hge => intro _ hlo hhi; omega

/-- An ascending table is found to contain exactly the code points of its ranges. -/
theorem contains_iff {table : Array (Nat × Nat)} (h : Ascending table) {n : Nat} :
    contains table n = true ↔ ∃ r ∈ table, r.1 ≤ n ∧ n ≤ r.2 := by
  refine ⟨contains_sound, fun ⟨r, hr, h1, h2⟩ => ?_⟩
  obtain ⟨k, hk⟩ := Array.mem_iff_getElem?.1 hr
  exact containsIn_complete h hk h1 h2 (Nat.le_refl _) (Nat.zero_le k)
    (Array.getElem?_eq_some_iff.1 hk).1

end Ranges

namespace CharSet

/-- Every code point of every range of `s` satisfies `P`. -/
def Sub (s : CharSet) (P : Char → Prop) : Prop :=
  ∀ r ∈ s.ranges, ∀ c : Char, r.1 ≤ c.toNat → c.toNat ≤ r.2 → P c

variable {P : Char → Prop}

theorem Sub.mem {s : CharSet} (h : s.Sub P) {c : Char} (hc : s.mem c = true) : P c := by
  obtain ⟨r, hr, h1, h2⟩ := Ranges.contains_sound hc
  exact h r (Array.mem_toList_iff.1 (Array.mem_toList_iff.2 hr)) c h1 h2

/-- Joining touching ranges covers no code point the ranges did not. -/
theorem mergeSorted_sub (rs : List (Nat × Nat))
    (h : ∀ r ∈ rs, ∀ c : Char, r.1 ≤ c.toNat → c.toNat ≤ r.2 → P c) :
    ∀ r ∈ mergeSorted rs, ∀ c : Char, r.1 ≤ c.toNat → c.toNat ≤ r.2 → P c := by
  fun_induction mergeSorted rs with
  | case1 a b c d rest hcb ih =>
    apply ih
    intro r hr x hx1 hx2
    rcases List.mem_cons.1 hr with rfl | hr
    · -- the joined range is covered by the two it joins
      by_cases hxb : x.toNat ≤ b
      · exact h (a, b) (by simp) x hx1 hxb
      · exact h (c, d) (by simp) x (by simp at hx1 hx2 ⊢; omega) (by simp at hx2 ⊢; omega)
    · exact h r (by simp [hr]) x hx1 hx2
  | case2 a b c d rest hcb ih =>
    intro r hr
    rcases List.mem_cons.1 hr with rfl | hr
    · exact h (a, b) (by simp)
    · exact ih (fun r hr => h r (List.mem_cons_of_mem _ hr)) r hr
  | case3 rs hrs => exact h

theorem ofRanges_sub {rs : List (Nat × Nat)}
    (h : ∀ r ∈ rs, ∀ c : Char, r.1 ≤ c.toNat → c.toNat ≤ r.2 → P c) : (ofRanges rs).Sub P := by
  intro r hr
  refine mergeSorted_sub _ (fun r hr => h r ?_) r (by simpa [ofRanges] using hr)
  exact List.mem_mergeSort.1 hr

theorem range_sub {a b : Char} (h : ∀ c : Char, a.toNat ≤ c.toNat → c.toNat ≤ b.toNat → P c) :
    (range a b).Sub P :=
  ofRanges_sub fun r hr => by
    rw [List.mem_singleton] at hr
    subst hr
    exact h

/-- A set of one character holds only that character. -/
theorem range_self_sub (a : Char) : (range a a).Sub (· = a) :=
  range_sub fun _ h1 h2 => Char.toNat_inj.1 (Nat.le_antisymm h2 h1)

theorem ofString_sub {s : String} (h : ∀ c ∈ s.toList, P c) : (ofString s).Sub P :=
  ofRanges_sub fun r hr c h1 h2 => by
    obtain ⟨x, hx, rfl⟩ := List.mem_map.1 hr
    rw [Char.toNat_inj.1 (Nat.le_antisymm h2 h1)]
    exact h x hx

theorem union_sub {s t : CharSet} (hs : s.Sub P) (ht : t.Sub P) : (union s t).Sub P :=
  ofRanges_sub fun r hr => by
    rcases List.mem_append.1 hr with hr | hr
    · exact hs r (Array.mem_toList_iff.1 hr)
    · exact ht r (Array.mem_toList_iff.1 hr)

/-- The blank set holds blank characters only. -/
theorem blank_sub : blank.Sub fun c => Text.isBlank c = true := by
  refine ofRanges_sub fun r hr c h1 h2 => ?_
  simp only [Text.blankRanges, List.mem_cons, List.not_mem_nil, or_false] at hr
  simp only [Text.isBlank, Text.blankRanges]
  rcases hr with rfl | rfl | rfl | rfl | rfl | rfl | rfl | rfl | rfl | rfl
  all_goals split <;> simp_all <;> omega

end CharSet

end Lineage
