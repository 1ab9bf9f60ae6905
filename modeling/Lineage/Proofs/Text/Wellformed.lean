import Lineage.Proofs.Scan.Bounds
import Lineage.Proofs.Text.Utf8
/-!
Bytes that hold UTF-8 text.

Bytes are valid UTF-8 (`Utf8.Valid`) when at every character boundary inside them a
character is read and a boundary follows it. Reading the UTF-8 form of a character gives the
character back (`Utf8.decodeAt_utf8EncodeChar`), so the bytes of every string are valid
(`Utf8.valid_toUTF8`). In valid bytes every offset lies in a character read at a boundary at
or below it (`Utf8.Valid.exists_char_mem`), and no character read at an offset runs past a
later boundary (`Utf8.char_end_le`): characters and boundaries tile the bytes.
-/
namespace Lineage.Utf8

variable {bs : ByteArray} {i j w : Nat} {c : Char}

/-- Bytes are UTF-8 throughout: at every boundary inside them a character is read, and a
boundary follows it. -/
def Valid (bs : ByteArray) : Prop :=
  ∀ i < bs.size, isBoundary bs i = true →
    ∃ c w, decodeAt bs i = .char c w ∧ isBoundary bs (i + w) = true

theorem width_pos_of_decodeAt (h : decodeAt bs i = .char c w) : 0 < w := by
  have hw := width_decodeAt_pos bs i
  rwa [h] at hw

/-! ### Boundaries -/

/-- A continuation byte after the start is no boundary. -/
theorem isBoundary_of_isCont (hj : 0 < j) (h : isCont (byteAt bs j) = true) :
    isBoundary bs j = false := by
  have hlt := lt_size_of_isCont h
  simp only [isBoundary, h, Bool.not_true, Bool.and_false, Bool.or_false, Bool.or_eq_false_iff,
    beq_eq_false_iff_ne]
  omega

/-- An ASCII byte inside the bytes starts a character. -/
theorem isBoundary_of_lt (hj : j < bs.size) (h : byteAt bs j < 0x80) : isBoundary bs j = true := by
  have hnc : isCont (byteAt bs j) = false := by
    simp only [isCont, Bool.and_eq_false_iff, decide_eq_false_iff_not]
    omega
  simp [isBoundary, hj, hnc]

/-- The start of a character read inside the bytes is a boundary. -/
theorem isBoundary_of_decodeAt (hj : j < bs.size) (h : decodeAt bs j = .char c w) :
    isBoundary bs j = true := by
  simp [isBoundary, hj, not_isCont_of_decodeAt_char h]

/-- A character read at `i` ends at or before every boundary after `i`. -/
theorem char_end_le (hi : decodeAt bs i = .char c w) (hj : isBoundary bs j = true) (hij : i < j) :
    i + w ≤ j := by
  by_contra hlt
  have hcont := decodeAt_char_tail hi (k := j - i) (by omega) (by omega)
  rw [show i + (j - i) = j by omega] at hcont
  rw [isBoundary_of_isCont (by omega) hcont] at hj
  cases hj

/-- In valid bytes every offset inside lies in a character read at a boundary at or below it,
which ends at a boundary. -/
theorem Valid.exists_char_mem (h : Valid bs) : ∀ {j : Nat}, j < bs.size →
    ∃ p c w, p ≤ j ∧ j < p + w ∧ decodeAt bs p = .char c w ∧ isBoundary bs p = true ∧
      isBoundary bs (p + w) = true
  | 0, hj => by
    have hb : isBoundary bs 0 = true := by simp [isBoundary]
    obtain ⟨c, w, hc, hend⟩ := h 0 hj hb
    exact ⟨0, c, w, Nat.le_refl 0, by have := width_pos_of_decodeAt hc; omega, hc, hb, hend⟩
  | j + 1, hj => by
    by_cases hb : isBoundary bs (j + 1) = true
    · obtain ⟨c, w, hc, hend⟩ := h (j + 1) hj hb
      exact ⟨j + 1, c, w, Nat.le_refl _, by have := width_pos_of_decodeAt hc; omega, hc, hb, hend⟩
    · -- the character holding `j` goes on over `j + 1`, which starts nothing
      obtain ⟨p, c, w, hpj, hjp, hc, hp, hend⟩ := h.exists_char_mem (j := j) (by omega)
      refine ⟨p, c, w, by omega, ?_, hc, hp, hend⟩
      by_contra hle
      rw [show j + 1 = p + w by omega] at hb
      exact hb hend

/-- Reading valid bytes from a boundary gives the characters read at the boundaries on the
way, and nothing else. -/
theorem Valid.mem_decodeFrom (h : Valid bs) {stop : Nat} (hstop : stop ≤ bs.size) :
    ∀ (fuel i : Nat) (acc : String) (d : Char), isBoundary bs i = true →
      d ∈ (decodeFrom bs stop fuel i acc).toList →
      d ∈ acc.toList ∨ ∃ j u, i ≤ j ∧ j < stop ∧ isBoundary bs j = true ∧ decodeAt bs j = .char d u
  | 0, _, _, _, _, hd => Or.inl hd
  | fuel + 1, i, acc, d, hi, hd => by
    unfold decodeFrom at hd
    split at hd
    · rename_i his
      obtain ⟨c, w, hc, hend⟩ := h i (by omega) hi
      rw [hc] at hd
      rcases h.mem_decodeFrom hstop fuel (i + w) (acc.push c) d hend hd with hacc | ⟨j, u, hij, hjs, hj⟩
      · rw [String.toList_push, List.mem_append, List.mem_singleton] at hacc
        rcases hacc with hacc | rfl
        · exact Or.inl hacc
        · exact Or.inr ⟨i, w, Nat.le_refl i, his, hi, hc⟩
      · exact Or.inr ⟨j, u, by have := width_pos_of_decodeAt hc; omega, hjs, hj⟩
    · exact Or.inl hd

/-! ### The bytes of a string -/

theorem byteAt_ofNat_toByteArray {l : List Nat} {k : Nat} (hk : k < l.length)
    (hl : ∀ x ∈ l, x < 256) : byteAt (l.map UInt8.ofNat).toByteArray k = l[k] := by
  unfold byteAt
  rw [dif_pos (by simpa using hk)]
  simp only [List.getElem_toByteArray, List.getElem_map]
  exact Nat.mod_eq_of_lt (hl _ (List.getElem_mem hk))

/-- Reading the UTF-8 form of a character gives the character back. -/
theorem decodeAt_utf8EncodeChar (c : Char) :
    decodeAt (String.utf8EncodeChar c).toByteArray 0 = .char c c.utf8Size := by
  have hv : c.toNat < 0xd800 ∨ (0xdfff < c.toNat ∧ c.toNat < 0x110000) := c.valid
  have hsize : c.utf8Size =
      if c.toNat ≤ 127 then 1 else if c.toNat ≤ 2047 then 2 else if c.toNat ≤ 65535 then 3 else 4 := by
    have h := utf8Size_ofNat (n := c.toNat) c.valid
    rwa [Char.ofNat_toNat] at h
  have hc : ∀ n, n = c.toNat → Char.ofNat n = c := fun n hn => hn ▸ Char.ofNat_toNat c
  rw [hsize]
  unfold String.utf8EncodeChar
  dsimp only
  rw [show c.val.toNat = c.toNat from rfl]
  -- one case per length of the form; the arithmetic of each byte is left to `omega`
  split_ifs with h1 h2 h3
  · have h0 := byteAt_ofNat_toByteArray (l := [c.toNat]) (k := 0) (by simp) (by simp; omega)
    simp only [List.map_cons, List.map_nil, List.getElem_cons_zero] at h0
    rw [decodeAt_of_lt (by rw [h0]; omega), h0, hc _ rfl]
  · have hb := fun k (hk : k < _) => byteAt_ofNat_toByteArray hk
      (l := [c.toNat / 64 % 32 + 192, c.toNat % 64 + 128]) (by simp; omega)
    have h0 := hb 0 (by simp)
    have h1 := hb 1 (by simp)
    simp only [List.map_cons, List.map_nil, List.getElem_cons_zero, List.getElem_cons_succ] at h0 h1
    unfold decodeAt
    simp only [Nat.zero_add, h0, h1]
    rw [if_neg (by omega), if_pos (by simp; omega), if_pos (by simp [isCont]; omega), hc _ (by omega)]
  · have hb := fun k (hk : k < _) => byteAt_ofNat_toByteArray hk
      (l := [c.toNat / 4096 % 16 + 224, c.toNat / 64 % 64 + 128, c.toNat % 64 + 128])
      (by simp; omega)
    have h0 := hb 0 (by simp)
    have h1 := hb 1 (by simp)
    have h2 := hb 2 (by simp)
    simp only [List.map_cons, List.map_nil, List.getElem_cons_zero, List.getElem_cons_succ] at h0 h1 h2
    unfold decodeAt
    simp only [Nat.zero_add, h0, h1, h2]
    rw [if_neg (by omega), if_neg (by simp only [Bool.and_eq_true, decide_eq_true_eq]; omega),
      if_pos (by simp only [Bool.and_eq_true, decide_eq_true_eq]; omega)]
    split_ifs <;> simp only [isCont, Bool.not_eq_true', Bool.and_eq_false_iff, beq_iff_eq,
      decide_eq_false_iff_not] at * <;>
      first | omega | rw [hc _ (by omega)]
  · have hb := fun k (hk : k < _) => byteAt_ofNat_toByteArray hk
      (l := [c.toNat / 262144 % 8 + 240, c.toNat / 4096 % 64 + 128, c.toNat / 64 % 64 + 128,
        c.toNat % 64 + 128]) (by simp; omega)
    have h0 := hb 0 (by simp)
    have h1 := hb 1 (by simp)
    have h2 := hb 2 (by simp)
    have h3 := hb 3 (by simp)
    simp only [List.map_cons, List.map_nil, List.getElem_cons_zero, List.getElem_cons_succ] at h0 h1 h2 h3
    unfold decodeAt
    simp only [Nat.zero_add, h0, h1, h2, h3]
    rw [if_neg (by omega), if_neg (by simp only [Bool.and_eq_true, decide_eq_true_eq]; omega),
      if_neg (by simp only [Bool.and_eq_true, decide_eq_true_eq]; omega),
      if_pos (by simp only [Bool.and_eq_true, decide_eq_true_eq]; omega)]
    split_ifs <;> simp only [isCont, Bool.not_eq_true', Bool.and_eq_false_iff, beq_iff_eq,
      decide_eq_false_iff_not] at * <;>
      first | omega | rw [hc _ (by omega)]

section Append

variable {A B : ByteArray}

theorem byteAt_append_left (hi : i < A.size) : byteAt (A ++ B) i = byteAt A i := by
  unfold byteAt
  rw [dif_pos (by simp; omega), dif_pos hi, ByteArray.getElem_append_left hi]

theorem byteAt_append_right (hi : A.size ≤ i) : byteAt (A ++ B) i = byteAt B (i - A.size) := by
  unfold byteAt
  by_cases h : i - A.size < B.size
  · rw [dif_pos (by simp; omega), dif_pos h, ByteArray.getElem_append_right hi]
  · rw [dif_neg (by simp; omega), dif_neg h]

/-- What is read at an offset depends on nothing but the four bytes from it. -/
theorem decodeAt_eq_of_bytes {bs' : ByteArray} {i' : Nat}
    (h : ∀ k < 4, byteAt bs' (i' + k) = byteAt bs (i + k)) : decodeAt bs' i' = decodeAt bs i := by
  have h0 := h 0 (by omega)
  have h1 := h 1 (by omega)
  have h2 := h 2 (by omega)
  have h3 := h 3 (by omega)
  simp only [Nat.add_zero] at h0
  unfold decodeAt
  rw [h0, h1, h2, h3]

/-- Past a nonempty first part, the boundaries of a joined array are those of the second. -/
theorem isBoundary_append_right (hA : 0 < A.size) (hi : A.size < i) :
    isBoundary (A ++ B) i = isBoundary B (i - A.size) := by
  unfold isBoundary
  rw [byteAt_append_right (by omega), ByteArray.size_append, Bool.eq_iff_iff]
  cases isCont (byteAt B (i - A.size)) <;> simp only [Bool.or_eq_true, beq_iff_eq, Bool.and_eq_true,
    decide_eq_true_eq, Bool.not_true, Bool.not_false, Bool.false_eq_true, and_false, and_true,
    or_false] <;> omega

/-- A character followed by valid bytes is valid. -/
theorem Valid.utf8EncodeChar_append (hB : Valid B) (c : Char) :
    Valid ((String.utf8EncodeChar c).toByteArray ++ B) := by
  intro i hi hb
  have hA : (String.utf8EncodeChar c).toByteArray.size = c.utf8Size := by
    simp [List.size_toByteArray]
  have hpos := Char.utf8Size_pos c
  have hfirst : decodeAt ((String.utf8EncodeChar c).toByteArray ++ B) 0 = .char c c.utf8Size :=
    decodeAt_congr (decodeAt_utf8EncodeChar c) fun k hk => byteAt_append_left (by omega)
  rcases Nat.lt_or_ge i c.utf8Size with hiA | hiA
  · -- inside the character only its first byte starts one
    obtain rfl : i = 0 := by
      by_contra h0
      have hcont := decodeAt_char_tail hfirst (k := i) (by omega) hiA
      rw [Nat.zero_add] at hcont
      rw [isBoundary_of_isCont (by omega) hcont] at hb
      cases hb
    refine ⟨c, c.utf8Size, hfirst, ?_⟩
    rw [Nat.zero_add]
    by_cases hB0 : B.size = 0
    · simp [isBoundary, hA, hB0]
    · -- the character ends where the valid bytes start
      obtain ⟨d, u, hd, -⟩ := hB 0 (by omega) (by simp [isBoundary])
      have hnc := not_isCont_of_decodeAt_char hd
      unfold isBoundary
      rw [byteAt_append_right (by omega), hA, Nat.sub_self, hnc, ByteArray.size_append, hA]
      simp
      omega
  · have hbB : isBoundary B (i - c.utf8Size) = true := by
      rcases Nat.lt_or_ge c.utf8Size i with hlt | hle
      · rwa [← hA, ← isBoundary_append_right (by omega) (by omega)]
      · simp [isBoundary, show i - c.utf8Size = 0 by omega]
    obtain ⟨d, u, hd, hend⟩ := hB (i - c.utf8Size) (by simp at hi; omega) hbB
    have hu := width_pos_of_decodeAt hd
    refine ⟨d, u, ?_, ?_⟩
    · have hshift : decodeAt ((String.utf8EncodeChar c).toByteArray ++ B) i =
          decodeAt B (i - c.utf8Size) := decodeAt_eq_of_bytes fun k _ => by
        rw [byteAt_append_right (by omega), hA, show i + k - c.utf8Size = i - c.utf8Size + k by omega]
      rw [hshift]
      exact hd
    · rw [isBoundary_append_right (by omega) (by omega), hA,
        show i + u - c.utf8Size = i - c.utf8Size + u by omega]
      exact hend

end Append

/-- The UTF-8 form of a list of characters is valid. -/
theorem valid_utf8Encode : ∀ l : List Char, Valid l.utf8Encode
  | [] => by
    intro i hi
    simp [List.utf8Encode_nil] at hi
  | c :: l => by
    rw [List.utf8Encode_cons, List.utf8Encode_singleton]
    exact (valid_utf8Encode l).utf8EncodeChar_append c

/-- The bytes of a string are valid UTF-8. -/
theorem valid_toUTF8 (s : String) : Valid s.toUTF8 := by
  rw [String.toUTF8_eq_toByteArray, ← String.utf8Encode_toList]
  exact valid_utf8Encode s.toList

end Lineage.Utf8
