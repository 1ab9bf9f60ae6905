import Lineage.Proofs.Overlay.Masking
import Mathlib.Data.Finset.Card
/-!
Masking makes progress.

A character *shows* when it is neither the mask character nor a blank (`Overlay.Shows`), and
`Overlay.showing` counts the offsets of the view where such a character starts. This count is
what bounds the rounds of the scanners. A fill with a byte that hides (`Overlay.Hides`):

* never makes an offset show (`Overlay.showsAt_of_fill`): it writes nothing but its byte
  (`Overlay.byteAt_fillFrom`), an ASCII byte, which neither reads as a character that shows
  nor continues a longer character;
* hides each offset that showed inside its widened range (`Overlay.showsAt_fill_of_mem`), since
  its walk lands on every character that starts in the range or fills over it whole
  (`Overlay.byteAt_fillFrom_cover`).

So a fill never raises the count, and one whose range holds a character that shows
(`Overlay.ShowsIn`) lowers it (`Overlay.showing_fill_lt`, and for a pass over all matches
`Overlay.showing_maskAllWithByte_lt`). None of this needs the view to be valid UTF-8: it is
read off the bytes a fill writes.
-/
namespace Lineage

namespace Overlay

open Utf8

/-- A character that shows: neither the mask character nor a blank. -/
def Shows (c : Char) : Prop := c ≠ Char.ofNat 0x1a ∧ Text.isBlank c = false

instance : DecidablePred Shows := fun _ => inferInstanceAs (Decidable (_ ∧ _))

/-- A printable ASCII character shows. -/
theorem shows_of_ascii {c : Char} (h1 : 0x20 < c.toNat) (h2 : c.toNat < 0x80) : Shows c := by
  refine ⟨fun h => ?_, ?_⟩
  · have hc : c.toNat = 0x1a := by rw [h]; rfl
    omega
  · simp only [Text.isBlank, if_pos h2, Bool.or_eq_false_iff, Bool.and_eq_false_iff,
      decide_eq_false_iff_not, beq_eq_false_iff_ne]
    omega

theorem Hides.not_shows {f : UInt8} (hf : Hides f) : ¬ Shows (Char.ofNat f.toNat) := by
  rintro ⟨hne, hblank⟩
  rcases hf with rfl | ⟨-, hb⟩
  · exact hne rfl
  · rw [hb] at hblank
    cases hblank

/-- Whether a character that shows starts at offset `j` of the view. -/
def showsAt (t : Overlay) (j : Nat) : Bool :=
  match charAt? t.view j with
  | some (c, _) => decide (Shows c)
  | none => false

theorem showsAt_iff {t : Overlay} {j : Nat} :
    t.showsAt j = true ↔ ∃ c w, charAt? t.view j = some (c, w) ∧ Shows c := by
  unfold showsAt
  split
  · rename_i c w hc
    simp [hc]
  · rename_i hc
    simp [hc]

/-- The number of offsets of the view where a character that shows starts. -/
def showing (t : Overlay) : Nat := ((Finset.range t.size).filter fun j => t.showsAt j = true).card

theorem showing_le_size (t : Overlay) : t.showing ≤ t.size :=
  (Finset.card_filter_le _ _).trans (Finset.card_range _).le

/-! ### What a fill writes, byte by byte -/

section Walk

variable {f : UInt8} {stop : Nat}

/-- One step of a fill's walk from `i`: it moves past the item that starts there, having
written the fill byte over it unless it is a blank character. -/
theorem fillFrom_step (fuel : Nat) (cur : ByteArray) {i : Nat} (h : i < stop) :
    ∃ cur', fillFrom f stop (fuel + 1) i cur =
        fillFrom f stop fuel (i + (decodeAt cur i).width) cur' ∧
      (cur' = cur ∨ cur' = fillFrom.fillBytes f i (decodeAt cur i).width cur) ∧
      ((∃ c w, decodeAt cur i = .char c w ∧ Text.isBlank c = true) ∨
        cur' = fillFrom.fillBytes f i (decodeAt cur i).width cur) := by
  rw [fillFrom, if_pos h]
  cases hd : decodeAt cur i with
  | char c w =>
    by_cases hb : Text.isBlank c
    · exact ⟨cur, by simp [hb, Item.width], .inl rfl, .inl ⟨c, w, rfl, hb⟩⟩
    · exact ⟨_, by simp [hb, Item.width], .inr rfl, .inr rfl⟩
  | invalid w => exact ⟨_, rfl, .inr rfl, .inr rfl⟩

/-- A fill writes nothing but its byte. -/
theorem byteAt_fillFrom : ∀ (fuel i : Nat) (cur : ByteArray) (q : Nat),
    byteAt (fillFrom f stop fuel i cur) q = byteAt cur q ∨
      byteAt (fillFrom f stop fuel i cur) q = f.toNat
  | 0, _, _, _ => .inl rfl
  | fuel + 1, i, cur, q => by
    by_cases h : i < stop
    · obtain ⟨cur', heq, hcur', -⟩ := fillFrom_step (f := f) fuel cur h
      rw [heq]
      rcases byteAt_fillFrom fuel _ cur' q with hq | hq
      · rw [hq]
        rcases hcur' with rfl | rfl
        · exact .inl rfl
        · rw [byteAt_fillBytes]
          split <;> simp
      · exact .inr hq
    · rw [fillFrom, if_neg h]
      exact .inl rfl

/-- A fill's walk from `i` leaves every byte before `i` as it was. -/
theorem byteAt_fillFrom_of_lt : ∀ (fuel i : Nat) (cur : ByteArray) (q : Nat), q < i →
    byteAt (fillFrom f stop fuel i cur) q = byteAt cur q
  | 0, _, _, _, _ => rfl
  | fuel + 1, i, cur, q, hq => by
    by_cases h : i < stop
    · obtain ⟨cur', heq, hcur', -⟩ := fillFrom_step (f := f) fuel cur h
      rw [heq, byteAt_fillFrom_of_lt fuel _ cur' q (by omega)]
      rcases hcur' with rfl | rfl
      · rfl
      · rw [byteAt_fillBytes, if_neg (by omega)]
    · rw [fillFrom, if_neg h]

/-- The walk of a fill lands on every character that starts before its end, or fills over it
whole: either way a character that is not blank ends under the fill byte. -/
theorem byteAt_fillFrom_cover {k w : Nat} {c : Char} (hc : Text.isBlank c = false) :
    ∀ (fuel i : Nat) (cur : ByteArray), i ≤ k → k < stop → stop ≤ i + fuel →
      k < cur.size → decodeAt cur k = .char c w →
      byteAt (fillFrom f stop fuel i cur) k = f.toNat
  | 0, i, _, hik, hks, hfuel, _, _ => absurd hfuel (by omega)
  | fuel + 1, i, cur, hik, hks, hfuel, hsize, hk => by
    obtain ⟨cur', heq, hcur', hfill⟩ :=
      fillFrom_step (f := f) fuel cur (Nat.lt_of_le_of_lt hik hks)
    have hu := width_decodeAt_pos cur i
    rw [heq]
    -- once this step writes the byte at `k`, the rest of the walk starts past it
    have hwritten : k < i + (decodeAt cur i).width →
        cur' = fillFrom.fillBytes f i (decodeAt cur i).width cur →
        byteAt (fillFrom f stop fuel (i + (decodeAt cur i).width) cur') k = f.toNat := by
      intro hkw hcur
      rw [byteAt_fillFrom_of_lt fuel _ cur' k hkw, hcur, byteAt_fillBytes,
        if_pos ⟨hik, hkw, hsize⟩]
    rcases Nat.eq_or_lt_of_le hik with rfl | hlt
    · -- the walk lands on the character, which is not blank
      refine hwritten (by omega) (hfill.resolve_left ?_)
      rintro ⟨c', w', hd, hb⟩
      rw [hk] at hd
      obtain ⟨rfl, -⟩ := Item.char.inj hd
      rw [hb] at hc
      cases hc
    · by_cases hkw : k < i + (decodeAt cur i).width
      · -- a character read here cannot reach over `k`, where another one starts
        refine hwritten hkw (hfill.resolve_left ?_)
        rintro ⟨c', w', hd, -⟩
        rw [hd] at hkw
        have hcont := decodeAt_char_tail hd (k := k - i) (by omega)
          (by simp [Item.width] at hkw; omega)
        rw [show i + (k - i) = k by omega, not_isCont_of_decodeAt_char hk] at hcont
        cases hcont
      · -- the step ends at or before `k` and leaves the bytes from there as they were
        have hsame : ∀ q, i + (decodeAt cur i).width ≤ q → byteAt cur' q = byteAt cur q := by
          intro q hq
          rcases hcur' with rfl | rfl
          · rfl
          · rw [byteAt_fillBytes, if_neg (by omega)]
        have hsize' : k < cur'.size := by
          rcases hcur' with rfl | rfl
          · exact hsize
          · rw [size_fillBytes]
            exact hsize
        exact byteAt_fillFrom_cover hc fuel _ cur' (by omega) hks (by omega) hsize'
          (decodeAt_congr hk fun j _ => hsame _ (by omega))

end Walk

/-- Overwriting bytes with an ASCII byte whose character does not show makes no character
show: the byte neither reads as such a character nor continues a longer one. -/
theorem charAt?_of_overwrite {v v' : ByteArray} {b : Nat} (hb : b < 0x80)
    (hshow : ¬ Shows (Char.ofNat b)) (hsize : v'.size = v.size)
    (hbytes : ∀ q, byteAt v' q = byteAt v q ∨ byteAt v' q = b) {j w : Nat} {c : Char}
    (h : charAt? v' j = some (c, w)) (hc : Shows c) : charAt? v j = some (c, w) := by
  obtain ⟨hj, hd⟩ := charAt?_eq_some_iff.1 h
  refine charAt?_eq_some_iff.2 ⟨hsize ▸ hj, decodeAt_congr hd fun k hk => ?_⟩
  rcases hbytes (j + k) with hsame | hnew
  · exact hsame.symm
  · exfalso
    rcases Nat.eq_zero_or_pos k with rfl | hk0
    · -- a written first byte is the whole character, and it does not show
      rw [Nat.add_zero] at hnew
      rw [decodeAt_of_lt (by omega), hnew] at hd
      obtain ⟨rfl, -⟩ := Item.char.inj hd
      exact hshow hc
    · -- and a written later byte continues nothing
      have hcont := decodeAt_char_tail hd hk0 hk
      rw [hnew] at hcont
      simp only [isCont, Bool.and_eq_true, decide_eq_true_eq] at hcont
      omega

/-! ### What a fill does to the count -/

variable {t : Overlay} {f : UInt8}

theorem byteAt_view_fill (t : Overlay) (start stop : Nat) (f : UInt8) (q : Nat) :
    byteAt (t.fill start stop f).view q = byteAt t.view q ∨
      byteAt (t.fill start stop f).view q = f.toNat :=
  byteAt_fillFrom _ _ t.view q

/-- A fill with a byte that hides makes no offset show. -/
theorem showsAt_of_fill (hf : Hides f) {start stop j : Nat}
    (h : (t.fill start stop f).showsAt j = true) : t.showsAt j = true := by
  obtain ⟨c, w, hc, hs⟩ := showsAt_iff.1 h
  exact showsAt_iff.2 ⟨c, w, charAt?_of_overwrite hf.lt hf.not_shows (size_fillFrom _ _ _ _ _)
    (byteAt_view_fill t start stop f) hc hs, hs⟩

/-- A fill with a byte that hides hides every offset that showed inside its widened range. -/
theorem showsAt_fill_of_mem (hf : Hides f) {start stop k : Nat} (hk : t.showsAt k = true)
    (ha : (t.widen start stop).1 ≤ k) (hb : k < (t.widen start stop).2) :
    (t.fill start stop f).showsAt k = false := by
  obtain ⟨c, w, hc, hs⟩ := showsAt_iff.1 hk
  obtain ⟨hks, hd⟩ := charAt?_eq_some_iff.1 hc
  obtain ⟨hab, -, -, -⟩ := widen_spec t start stop
  have hbyte : byteAt (t.fill start stop f).view k = f.toNat :=
    byteAt_fillFrom_cover hs.2 _ _ t.view ha hb (by omega) hks hd
  rw [Bool.eq_false_iff]
  intro h
  obtain ⟨c', w', hc', hs'⟩ := showsAt_iff.1 h
  rw [charAt?_eq_some_iff, decodeAt_of_lt (by rw [hbyte]; exact hf.lt), hbyte] at hc'
  obtain ⟨rfl, -⟩ := Item.char.inj hc'.2
  exact hf.not_shows hs'

theorem showing_fill_subset (hf : Hides f) (start stop : Nat) :
    (Finset.range t.size).filter (fun j => (t.fill start stop f).showsAt j = true) ⊆
      (Finset.range t.size).filter fun j => t.showsAt j = true := by
  intro j hj
  rw [Finset.mem_filter] at hj ⊢
  exact ⟨hj.1, showsAt_of_fill hf hj.2⟩

/-- A fill with a byte that hides never raises the count. -/
theorem showing_fill_le (hf : Hides f) (start stop : Nat) :
    (t.fill start stop f).showing ≤ t.showing :=
  Finset.card_le_card (showing_fill_subset hf start stop)

theorem widen_fst_le (t : Overlay) (start stop : Nat) : (t.widen start stop).1 ≤ start :=
  (boundaryBelow_le _ _).trans (Nat.min_le_left _ _)

theorem min_le_widen_snd (t : Overlay) (start stop : Nat) :
    min stop t.size ≤ (t.widen start stop).2 := by
  unfold widen size
  dsimp only
  have habove := (boundaryAbove_spec t.source
    (max (min start t.source.size) (min stop t.source.size)) (by omega)).1
  omega

/-- An offset of the range that lies in the text lies in the widened range. -/
theorem mem_widen {start stop k : Nat} (h₁ : start ≤ k) (h₂ : k < stop) (h₃ : k < t.size) :
    (t.widen start stop).1 ≤ k ∧ k < (t.widen start stop).2 :=
  ⟨(widen_fst_le t start stop).trans h₁,
    Nat.lt_of_lt_of_le (Nat.lt_min.2 ⟨h₂, h₃⟩) (min_le_widen_snd t start stop)⟩

/-- A character that shows starts in the range and ends in it. -/
def ShowsIn (t : Overlay) (start stop : Nat) : Prop :=
  ∃ k c w, start ≤ k ∧ k + w ≤ stop ∧ charAt? t.view k = some (c, w) ∧ Shows c

theorem ShowsIn.lt {start stop : Nat} (h : t.ShowsIn start stop) : start < stop := by
  obtain ⟨k, c, w, hk, hkw, hc, -⟩ := h
  have := charAt?_width_pos hc
  omega

/-- A fill with a byte that hides lowers the count when a character that shows lies in its
range. -/
theorem showing_fill_lt (hf : Hides f) {start stop : Nat} (h : t.ShowsIn start stop) :
    (t.fill start stop f).showing < t.showing := by
  obtain ⟨k, c, w, hk, hkw, hc, hs⟩ := h
  have hw := charAt?_width_pos hc
  have hks : k < t.size := by
    have hkv := (charAt?_eq_some_iff.1 hc).1
    rwa [t.size_view] at hkv
  have hshows : t.showsAt k = true := showsAt_iff.2 ⟨c, w, hc, hs⟩
  obtain ⟨ha, hb⟩ := mem_widen hk (Nat.lt_of_lt_of_le (Nat.lt_add_of_pos_right hw) hkw) hks
  refine Finset.card_lt_card ((Finset.ssubset_iff_of_subset (showing_fill_subset hf start stop)).2
    ⟨k, Finset.mem_filter.2 ⟨Finset.mem_range.2 hks, hshows⟩, fun hmem => ?_⟩)
  rw [Finset.mem_filter, showsAt_fill_of_mem hf hshows ha hb] at hmem
  cases hmem.2

/-- Masking a range in which a character that shows lies lowers the count. -/
theorem showing_mask_lt {start stop : Nat} (h : t.ShowsIn start stop) :
    (t.mask start stop).showing < t.showing :=
  showing_fill_lt (.inl rfl) h

/-- Fills in a row with a byte that hides never raise the count. -/
theorem showing_foldl_le {g : Overlay → Nat × Nat → Overlay}
    (hg : ∀ t r, (g t r).showing ≤ t.showing) :
    ∀ (rs : List (Nat × Nat)) (t : Overlay), (rs.foldl g t).showing ≤ t.showing
  | [], _ => Nat.le_refl _
  | r :: rs, t => (showing_foldl_le hg rs (g t r)).trans (hg t r)

/-- A pass that masks every nonempty match with a byte that hides lowers the count, once it
masks anything, when a character that shows lies in every match. -/
theorem showing_maskAllWithByte_lt (hf : Hides f) {prog : Program}
    (hm : ∀ m ∈ t.findAll prog, t.ShowsIn m.start m.stop)
    (hch : (t.maskAllWithByte prog f).2 = true) :
    (t.maskAllWithByte prog f).1.showing < t.showing := by
  unfold maskAllWithByte at hch ⊢
  dsimp only at hch ⊢
  generalize hr : (t.findAll prog).filterMap _ = ranges at hch ⊢
  cases ranges with
  | nil => cases hch
  | cons r rs =>
    -- the first range masked is a nonempty match of the view as it was
    have hmem : r ∈ r :: rs := List.mem_cons_self
    rw [← hr] at hmem
    obtain ⟨m, hm', hmr⟩ := List.mem_filterMap.1 hmem
    split_ifs at hmr
    obtain rfl := Option.some.inj hmr
    rw [List.foldl_cons]
    refine Nat.lt_of_le_of_lt (showing_foldl_le (fun t r => ?_) rs _)
      (showing_fill_lt hf (hm m hm'))
    obtain ⟨a, b⟩ := r
    exact showing_fill_le hf a b

theorem showing_maskAll_lt {prog : Program}
    (hm : ∀ m ∈ t.findAll prog, t.ShowsIn m.start m.stop) (hch : (t.maskAll prog).2 = true) :
    (t.maskAll prog).1.showing < t.showing :=
  showing_maskAllWithByte_lt (.inl rfl) hm hch

end Overlay

end Lineage
