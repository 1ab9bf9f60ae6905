import Lineage.Text.Utf8
import Mathlib.Tactic.SplitIfs
/-!
Reading UTF-8 byte by byte.

`Utf8.decodeAt` reads one item at an offset. A character it reads has one of the four forms
of UTF-8 (`Utf8.CharForm`, `charForm_of_decodeAt`, `decodeAt_of_charForm`): its lead byte
fixes its width, the byte after the lead lies in the range the lead allows, and continuation
bytes follow. So the bytes after the lead byte are continuation bytes (`decodeAt_char_tail`),
and the character's UTF-8 form takes exactly the bytes read (`decodeAt_char_utf8Size`); a
continuation byte starts nothing (`decodeAt_of_isCont`). A form reads no byte past its width,
so what is read depends on nothing but the bytes read (`decodeAt_congr`), and two byte arrays
read the same character wherever they share its bytes. A scanner leans on this to compare
what the view of an overlay reads with what its source reads.
-/
namespace Lineage.Utf8

variable {bs : ByteArray} {i w : Nat} {c : Char}

theorem byteAt_lt (bs : ByteArray) (i : Nat) : byteAt bs i < 256 := by
  unfold byteAt
  split
  · exact UInt8.toNat_lt _
  · omega

theorem toNat_ofNat_of_isValidChar {n : Nat} (h : n.isValidChar) : (Char.ofNat n).toNat = n := by
  show (if hv : n.isValidChar then Char.ofNatAux n hv else '\x00').toNat = n
  rw [dif_pos h]
  rfl

/-- The length of the UTF-8 form of a code point. -/
theorem utf8Size_ofNat {n : Nat} (h : n.isValidChar) :
    (Char.ofNat n).utf8Size =
      if n ≤ 127 then 1 else if n ≤ 2047 then 2 else if n ≤ 65535 then 3 else 4 := by
  have hn : (Char.ofNat n).val.toNat = n := by rw [Char.toNat_val, toNat_ofNat_of_isValidChar h]
  simp only [Char.utf8Size, UInt32.le_iff_toNat_le, hn, UInt32.toNat_ofNatLT]

/-- The four forms of a UTF-8 character, read off the bytes `b 0` to `b 3` from its start:
the lead byte fixes the width `w`; the byte after it lies in the range the lead byte allows,
which shuts out overlong forms, surrogates and code points past `0x10FFFF`; continuation
bytes follow; and `c` is the code point they spell. -/
def CharForm (b : Nat → Nat) (c : Char) (w : Nat) : Prop :=
  (w = 1 ∧ b 0 < 0x80 ∧ c = Char.ofNat (b 0)) ∨
  (w = 2 ∧ 0xC2 ≤ b 0 ∧ b 0 ≤ 0xDF ∧ isCont (b 1) = true ∧
    c = Char.ofNat ((b 0 - 0xC0) * 64 + (b 1 - 0x80))) ∨
  (w = 3 ∧ 0xE0 ≤ b 0 ∧ b 0 ≤ 0xEF ∧ isCont (b 1) = true ∧ (b 0 = 0xE0 → 0xA0 ≤ b 1) ∧
    (b 0 = 0xED → b 1 ≤ 0x9F) ∧ isCont (b 2) = true ∧
    c = Char.ofNat ((b 0 - 0xE0) * 4096 + (b 1 - 0x80) * 64 + (b 2 - 0x80))) ∨
  (w = 4 ∧ 0xF0 ≤ b 0 ∧ b 0 ≤ 0xF4 ∧ isCont (b 1) = true ∧ (b 0 = 0xF0 → 0x90 ≤ b 1) ∧
    (b 0 = 0xF4 → b 1 ≤ 0x8F) ∧ isCont (b 2) = true ∧ isCont (b 3) = true ∧
    c = Char.ofNat ((b 0 - 0xF0) * 262144 + (b 1 - 0x80) * 4096 + (b 2 - 0x80) * 64 +
      (b 3 - 0x80)))

/-- A form reads no byte past its width. -/
theorem CharForm.congr {b b' : Nat → Nat} (h : CharForm b c w) (hb : ∀ k < w, b' k = b k) :
    CharForm b' c w := by
  rcases h with ⟨rfl, h⟩ | ⟨rfl, h⟩ | ⟨rfl, h⟩ | ⟨rfl, h⟩
  · exact .inl ⟨rfl, by rwa [hb 0 (by omega)]⟩
  · exact .inr (.inl ⟨rfl, by rwa [hb 0 (by omega), hb 1 (by omega)]⟩)
  · exact .inr (.inr (.inl ⟨rfl, by rwa [hb 0 (by omega), hb 1 (by omega), hb 2 (by omega)]⟩))
  · exact .inr (.inr (.inr ⟨rfl, by
      rwa [hb 0 (by omega), hb 1 (by omega), hb 2 (by omega), hb 3 (by omega)]⟩))

/-- A character read has one of the four forms, read off the bytes from its offset. The
case split follows the decoder: by the lead byte, then by the bytes it checks after it. -/
theorem charForm_of_decodeAt (h : decodeAt bs i = .char c w) :
    CharForm (fun k => byteAt bs (i + k)) c w := by
  simp only [CharForm, Nat.add_zero]
  unfold decodeAt at h
  dsimp only at h
  by_cases h1 : byteAt bs i < 0x80
  · rw [if_pos h1, Item.char.injEq] at h
    obtain ⟨rfl, rfl⟩ := h
    exact .inl ⟨rfl, h1, rfl⟩
  rw [if_neg h1] at h
  by_cases h2 : (0xC2 ≤ byteAt bs i && byteAt bs i ≤ 0xDF) = true
  · rw [if_pos h2] at h
    split at h
    · rw [Item.char.injEq] at h
      obtain ⟨rfl, rfl⟩ := h
      simp only [Bool.and_eq_true, decide_eq_true_eq] at h2
      exact .inr (.inl ⟨rfl, h2.1, h2.2, ‹_›, rfl⟩)
    · cases h
  rw [if_neg h2] at h
  by_cases h3 : (0xE0 ≤ byteAt bs i && byteAt bs i ≤ 0xEF) = true
  · rw [if_pos h3] at h
    -- the range of the second byte depends on the lead byte
    generalize hlo : (if (byteAt bs i == 0xE0) = true then 0xA0 else 0x80) = lo at h
    generalize hhi : (if (byteAt bs i == 0xED) = true then 0x9F else 0xBF) = hi at h
    have hlo' : (byteAt bs i = 0xE0 → lo = 0xA0) ∧ 0x80 ≤ lo := by
      subst hlo
      exact ⟨fun he => by simp [he], by split <;> omega⟩
    have hhi' : (byteAt bs i = 0xED → hi = 0x9F) ∧ hi ≤ 0xBF := by
      subst hhi
      exact ⟨fun he => by simp [he], by split <;> omega⟩
    split at h
    · cases h
    split at h
    · cases h
    rw [Item.char.injEq] at h
    obtain ⟨rfl, rfl⟩ := h
    rename_i hb1 hb2
    simp only [Bool.and_eq_true, decide_eq_true_eq] at h3
    simp only [Bool.not_eq_true', Bool.not_eq_false, Bool.and_eq_false_iff, decide_eq_false_iff_not,
      Nat.not_le] at hb1 hb2
    refine .inr (.inr (.inl ⟨rfl, h3.1, h3.2, ?_, fun he => ?_, fun he => ?_, hb2, rfl⟩))
    · simp only [isCont, Bool.and_eq_true, decide_eq_true_eq]
      omega
    · have := hlo'.1 he
      omega
    · have := hhi'.1 he
      omega
  rw [if_neg h3] at h
  by_cases h4 : (0xF0 ≤ byteAt bs i && byteAt bs i ≤ 0xF4) = true
  · rw [if_pos h4] at h
    generalize hlo : (if (byteAt bs i == 0xF0) = true then 0x90 else 0x80) = lo at h
    generalize hhi : (if (byteAt bs i == 0xF4) = true then 0x8F else 0xBF) = hi at h
    have hlo' : (byteAt bs i = 0xF0 → lo = 0x90) ∧ 0x80 ≤ lo := by
      subst hlo
      exact ⟨fun he => by simp [he], by split <;> omega⟩
    have hhi' : (byteAt bs i = 0xF4 → hi = 0x8F) ∧ hi ≤ 0xBF := by
      subst hhi
      exact ⟨fun he => by simp [he], by split <;> omega⟩
    split at h
    · cases h
    split at h
    · cases h
    split at h
    · cases h
    rw [Item.char.injEq] at h
    obtain ⟨rfl, rfl⟩ := h
    rename_i hb1 hb2 hb3
    simp only [Bool.and_eq_true, decide_eq_true_eq] at h4
    simp only [Bool.not_eq_true', Bool.not_eq_false, Bool.and_eq_false_iff, decide_eq_false_iff_not,
      Nat.not_le] at hb1 hb2 hb3
    refine .inr (.inr (.inr ⟨rfl, h4.1, h4.2, ?_, fun he => ?_, fun he => ?_, hb2, hb3, rfl⟩))
    · simp only [isCont, Bool.and_eq_true, decide_eq_true_eq]
      omega
    · have := hlo'.1 he
      omega
    · have := hhi'.1 he
      omega
  rw [if_neg h4] at h
  cases h

/-- Bytes of one of the four forms are read as their character. -/
theorem decodeAt_of_charForm (hf : CharForm (fun k => byteAt bs (i + k)) c w) :
    decodeAt bs i = .char c w := by
  unfold decodeAt
  dsimp only
  simp only [CharForm, Nat.add_zero] at hf
  rcases hf with ⟨rfl, h0, hc⟩ | ⟨rfl, h0, h0', h1, hc⟩ | ⟨rfl, h0, h0', h1, hlo, hhi, h2, hc⟩ |
    ⟨rfl, h0, h0', h1, hlo, hhi, h2, h3, hc⟩ <;> rw [hc]
  · rw [if_pos h0]
  · rw [if_neg (by omega), if_pos (by simp; omega), if_pos h1]
  · simp only [isCont, Bool.and_eq_true, decide_eq_true_eq] at h1
    rw [if_neg (by omega), if_neg (by simp; omega), if_pos (by simp; omega),
      if_neg (by simp only [Bool.not_eq_true', Bool.and_eq_false_iff, decide_eq_false_iff_not,
        Nat.not_le, beq_iff_eq]; split <;> split <;> omega), if_neg (by simp [h2])]
  · simp only [isCont, Bool.and_eq_true, decide_eq_true_eq] at h1
    rw [if_neg (by omega), if_neg (by simp; omega), if_neg (by simp; omega),
      if_pos (by simp; omega),
      if_neg (by simp only [Bool.not_eq_true', Bool.and_eq_false_iff, decide_eq_false_iff_not,
        Nat.not_le, beq_iff_eq]; split <;> split <;> omega), if_neg (by simp [h2]),
      if_neg (by simp [h3])]

/-- An ASCII byte is read as its character. -/
theorem decodeAt_of_lt (h : byteAt bs i < 0x80) :
    decodeAt bs i = .char (Char.ofNat (byteAt bs i)) 1 := by
  simp [decodeAt, h]

theorem decodeAt_of_isCont (h : isCont (byteAt bs i) = true) : decodeAt bs i = .invalid 1 := by
  simp only [isCont, Bool.and_eq_true, decide_eq_true_eq] at h
  simp only [decodeAt]
  rw [if_neg (by omega), if_neg (by simp; omega), if_neg (by simp; omega), if_neg (by simp; omega)]

theorem width_decodeAt_pos (bs : ByteArray) (i : Nat) : 0 < (decodeAt bs i).width := by
  unfold decodeAt
  dsimp only
  -- the bounds on the second byte do not matter here
  generalize (if (byteAt bs i == 0xE0) = true then 0xA0 else 0x80) = lo₃
  generalize (if (byteAt bs i == 0xED) = true then 0x9F else 0xBF) = hi₃
  generalize (if (byteAt bs i == 0xF0) = true then 0x90 else 0x80) = lo₄
  generalize (if (byteAt bs i == 0xF4) = true then 0x8F else 0xBF) = hi₄
  repeat' split
  all_goals exact Nat.zero_lt_succ _

/-- The bytes after the lead byte of a character are continuation bytes. -/
theorem decodeAt_char_tail (h : decodeAt bs i = .char c w) {k : Nat} (hk : 0 < k) (hkw : k < w) :
    isCont (byteAt bs (i + k)) = true := by
  rcases charForm_of_decodeAt h with ⟨rfl, -⟩ | ⟨rfl, -, -, h1, -⟩ |
    ⟨rfl, -, -, h1, -, -, h2, -⟩ | ⟨rfl, -, -, h1, -, -, h2, h3, -⟩
  · omega
  · obtain rfl : k = 1 := by omega
    exact h1
  · -- the tail has at most three bytes
    rcases (show k = 1 ∨ k = 2 by omega) with rfl | rfl <;> assumption
  · rcases (show k = 1 ∨ k = 2 ∨ k = 3 by omega) with rfl | rfl | rfl <;> assumption

theorem not_isCont_of_decodeAt_char (h : decodeAt bs i = .char c w) :
    isCont (byteAt bs i) = false := by
  cases hc : isCont (byteAt bs i)
  · rfl
  · rw [decodeAt_of_isCont hc] at h
    cases h

/-- A character read takes as many bytes as its UTF-8 form. -/
theorem decodeAt_char_utf8Size (h : decodeAt bs i = .char c w) : c.utf8Size = w := by
  have h0 := byteAt_lt bs i
  have h1 := byteAt_lt bs (i + 1)
  have h2 := byteAt_lt bs (i + 2)
  have h3 := byteAt_lt bs (i + 3)
  have hf := charForm_of_decodeAt h
  simp only [CharForm, Nat.add_zero, isCont, Bool.and_eq_true, decide_eq_true_eq] at hf
  rcases hf with ⟨rfl, hl, hc⟩ | ⟨rfl, hl, hl', hc₁, hc⟩ | ⟨rfl, hl, hl', hc₁, hE0, hED, hc₂, hc⟩ |
    ⟨rfl, hl, hl', hc₁, hF0, hF4, hc₂, hc₃, hc⟩
  -- each form holds code points of exactly its length, and no surrogate
  all_goals rw [hc, utf8Size_ofNat (by simp only [Nat.isValidChar]; omega)]
  all_goals split_ifs <;> omega

/-- Bytes that agree on a character read it alike. -/
theorem decodeAt_congr {bs' : ByteArray} (h : decodeAt bs i = .char c w)
    (hb : ∀ k < w, byteAt bs' (i + k) = byteAt bs (i + k)) : decodeAt bs' i = .char c w :=
  decodeAt_of_charForm ((charForm_of_decodeAt h).congr hb)

theorem charAt?_eq_some_iff : charAt? bs i = some (c, w) ↔ i < bs.size ∧ decodeAt bs i = .char c w := by
  unfold charAt?
  split
  · split <;> simp_all
  · rename_i hi
    simp only [reduceCtorEq, false_iff, not_and]
    exact fun h => absurd h hi

theorem charAt?_width_pos (h : charAt? bs i = some (c, w)) : 0 < w := by
  rw [← decodeAt_char_utf8Size (charAt?_eq_some_iff.1 h).2]
  exact Char.utf8Size_pos c

/-- A character read ends inside the text. -/
theorem charAt?_end_le (h : charAt? bs i = some (c, w)) : i + w ≤ bs.size := by
  obtain ⟨hi, hd⟩ := charAt?_eq_some_iff.1 h
  rcases Nat.lt_or_ge 1 w with hw | hw
  · -- the last byte continues the character, so it lies in the text
    have hcont := decodeAt_char_tail hd (k := w - 1) (by omega) (by omega)
    rcases Nat.lt_or_ge (i + (w - 1)) bs.size with hlt | hge
    · omega
    · rw [byteAt, dif_neg (by omega)] at hcont
      exact absurd hcont (by decide)
  · have := charAt?_width_pos h
    omega

theorem charAt?_of_lt (hi : i < bs.size) (h : byteAt bs i < 0x80) :
    charAt? bs i = some (Char.ofNat (byteAt bs i), 1) :=
  charAt?_eq_some_iff.2 ⟨hi, decodeAt_of_lt h⟩

theorem charAt?_of_isCont (h : isCont (byteAt bs i) = true) : charAt? bs i = none := by
  simp [charAt?, decodeAt_of_isCont h]

end Lineage.Utf8
