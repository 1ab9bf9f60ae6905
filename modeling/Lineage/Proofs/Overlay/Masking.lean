import Lineage.Proofs.Text.Wellformed
/-!
Masking keeps the characters of the source in place.

An overlay starts with its view equal to its source (`Overlay.ofString`), and every edit only
fills ranges of the view (`Overlay.Edit`). A fill walks the characters of the view from the
start of its widened range to its end, and writes one fill byte over each byte of every
character that is not blank (`Overlay.fillFrom_spec`). Widening lands on boundaries of the
source (`Overlay.widen_spec`), and these stay boundaries of the view, so the walk never
starts or stops inside a character.

The invariant (`Overlay.Faithful`): the source is valid UTF-8, and each of its characters
stands in the view either as it is or, when it is not blank, as as many ASCII bytes. A fill
with an ASCII byte keeps it (`Overlay.Faithful.fill`), hence so does every edit. From it:

* `Overlay.Faithful.isBoundary_view`: every boundary of the source is one of the view, so the
  widened range of any range can be cut out of both;
* `Overlay.Faithful.hasUnmasked_mask`: after masking a range, its widened range shows only
  blanks and the mask character;
* `Overlay.Hidden.fill`: a fill with the mask byte or an ASCII blank never shows again a
  position that showed the mask character or a blank;
* `masking_keeps_text`: all of it after any sequence of edits of any text.
-/
namespace Lineage

namespace Overlay

open Utf8

variable {t : Overlay}

/-! ### Widening lands on boundaries of the source -/

theorem boundaryBelow_le (bs : ByteArray) : ∀ i, boundaryBelow bs i ≤ i
  | 0 => Nat.le_refl 0
  | i + 1 => by
    unfold boundaryBelow
    split
    · exact Nat.le_refl _
    · exact Nat.le_succ_of_le (boundaryBelow_le bs i)

theorem isBoundary_boundaryBelow (bs : ByteArray) : ∀ i, isBoundary bs (boundaryBelow bs i) = true
  | 0 => by simp [boundaryBelow, isBoundary]
  | i + 1 => by
    unfold boundaryBelow
    split
    · assumption
    · exact isBoundary_boundaryBelow bs i

theorem boundaryAbove_spec (bs : ByteArray) (i : Nat) (hi : i ≤ bs.size) :
    i ≤ boundaryAbove bs i ∧ boundaryAbove bs i ≤ bs.size ∧
      isBoundary bs (boundaryAbove bs i) = true := by
  fun_induction boundaryAbove bs i with
  | case1 i hend => exact ⟨Nat.le_refl i, hi, by simp [isBoundary, show i = bs.size by omega]⟩
  | case2 i _ hb => exact ⟨Nat.le_refl i, hi, hb⟩
  | case3 i hend _ ih =>
    obtain ⟨h1, h2, h3⟩ := ih (by omega)
    exact ⟨by omega, h2, h3⟩

/-- The widened range lies in the text, in order, with both ends on boundaries of the
source. -/
theorem widen_spec (t : Overlay) (start stop : Nat) :
    (t.widen start stop).1 ≤ (t.widen start stop).2 ∧ (t.widen start stop).2 ≤ t.size ∧
      isBoundary t.source (t.widen start stop).1 = true ∧
      isBoundary t.source (t.widen start stop).2 = true := by
  unfold widen size
  dsimp only
  have hbelow := boundaryBelow_le t.source (min start t.source.size)
  obtain ⟨h1, h2, h3⟩ := boundaryAbove_spec t.source
    (max (min start t.source.size) (min stop t.source.size)) (by omega)
  exact ⟨by omega, h2, isBoundary_boundaryBelow _ _, h3⟩

/-! ### What a fill writes -/

theorem byteAt_setByte (bs : ByteArray) (i q : Nat) (v : UInt8) :
    byteAt (setByte bs i v) q = if q = i ∧ i < bs.size then v.toNat else byteAt bs q := by
  unfold setByte
  split
  · rename_i hi
    have hsize : (bs.set i v).size = bs.size := by
      simp [← ByteArray.size_data, ByteArray.data_set]
    unfold byteAt
    by_cases hq : q < bs.size
    · rw [dif_pos (hsize ▸ hq), dif_pos hq, ByteArray.getElem_eq_getElem_data,
        ByteArray.getElem_eq_getElem_data]
      simp only [ByteArray.data_set, Array.getElem_set]
      by_cases hqi : q = i
      · simp [hqi, hi]
      · simp [hqi, Ne.symm hqi]
    · rw [dif_neg (by omega), dif_neg hq, if_neg (by omega)]
  · rename_i hi
    rw [if_neg (by omega)]

theorem byteAt_fillBytes (fill : UInt8) (w : Nat) :
    ∀ (i : Nat) (v : ByteArray) (q : Nat), byteAt (fillFrom.fillBytes fill i w v) q =
      if i ≤ q ∧ q < i + w ∧ q < v.size then fill.toNat else byteAt v q := by
  induction w with
  | zero => intro i v q; rw [fillFrom.fillBytes, if_neg (by omega)]
  | succ w ih =>
    intro i v q
    rw [fillFrom.fillBytes, ih, size_setByte, byteAt_setByte]
    by_cases h1 : i + 1 ≤ q ∧ q < i + 1 + w ∧ q < v.size
    · rw [if_pos h1, if_pos (by omega)]
    · rw [if_neg h1]
      by_cases h2 : q = i ∧ i < v.size
      · rw [if_pos h2, if_pos (by omega)]
      · rw [if_neg h2, if_neg (by omega)]

/-- A fill from a boundary `i` to a boundary `stop` of valid bytes `view`, run over bytes
`cur` that agree with `view` from `i` on, changes nothing outside the range, and writes over
each character of `view` that starts in the range its own bytes when it is blank and the
fill byte otherwise. -/
theorem fillFrom_spec {fill : UInt8} {stop : Nat} {view : ByteArray} (hv : Valid view)
    (hstop : isBoundary view stop = true) (hsize : stop ≤ view.size) :
    ∀ (fuel i : Nat) (cur : ByteArray), isBoundary view i = true → i ≤ stop → stop - i ≤ fuel →
      cur.size = view.size → (∀ q, i ≤ q → byteAt cur q = byteAt view q) →
      (∀ q, q < i ∨ stop ≤ q → byteAt (fillFrom fill stop fuel i cur) q = byteAt cur q) ∧
      (∀ j d u, i ≤ j → j < stop → isBoundary view j = true → decodeAt view j = .char d u →
        ∀ k < u, byteAt (fillFrom fill stop fuel i cur) (j + k) =
          if Text.isBlank d then byteAt view (j + k) else fill.toNat)
  | 0, i, cur, _, hle, hfuel, _, _ => by
    obtain rfl : i = stop := by omega
    exact ⟨fun q _ => rfl, fun j _ _ hij hjs => absurd hjs (by omega)⟩
  | fuel + 1, i, cur, hi, hle, hfuel, hcs, hcur => by
    by_cases his : i < stop
    · obtain ⟨d, u, hd, hend⟩ := hv i (by omega) hi
      have hu := width_pos_of_decodeAt hd
      have hus : i + u ≤ stop := char_end_le hd hstop his
      -- the bytes from `i` on are still those of the view, so the walk reads the same character
      have hdc : decodeAt cur i = .char d u := decodeAt_congr hd fun k _ => hcur _ (by omega)
      -- one step keeps the character or fills its bytes
      have hnext : ∀ q, byteAt (if Text.isBlank d then cur else fillFrom.fillBytes fill i u cur) q =
          if i ≤ q ∧ q < i + u ∧ Text.isBlank d = false then fill.toNat else byteAt cur q := by
        intro q
        by_cases hb : Text.isBlank d
        · simp [hb]
        · rw [if_neg hb, byteAt_fillBytes]
          by_cases hq : i ≤ q ∧ q < i + u
          · rw [if_pos ⟨hq.1, hq.2, by omega⟩, if_pos ⟨hq.1, hq.2, by simpa using hb⟩]
          · rw [if_neg (by omega), if_neg (by omega)]
      have hstep : fillFrom fill stop (fuel + 1) i cur = fillFrom fill stop fuel (i + u)
          (if Text.isBlank d then cur else fillFrom.fillBytes fill i u cur) := by
        rw [fillFrom, if_pos his, hdc]
        by_cases hb : Text.isBlank d <;> simp [hb]
      obtain ⟨hout, hin⟩ := fillFrom_spec hv hstop hsize fuel (i + u)
        (if Text.isBlank d then cur else fillFrom.fillBytes fill i u cur) hend hus (by omega)
        (by split <;> simp [size_fillBytes, hcs])
        (fun q hq => by rw [hnext, if_neg (by omega), hcur q (by omega)])
      rw [hstep]
      refine ⟨fun q hq => by rw [hout q (by omega), hnext, if_neg (by omega)], ?_⟩
      intro j d' u' hij hjs hj hd' k hk
      rcases Nat.eq_or_lt_of_le hij with rfl | hlt
      · -- the character at `i` itself
        rw [hd] at hd'
        obtain ⟨rfl, rfl⟩ := Item.char.inj hd'
        rw [hout (i + k) (by omega), hnext, hcur (i + k) (by omega)]
        by_cases hb : Text.isBlank d
        · rw [if_neg (by simp [hb]), if_pos hb]
        · rw [if_pos ⟨by omega, by omega, by simpa using hb⟩, if_neg hb]
      · -- a later character starts where this one ends or after
        have hju := char_end_le hd hj hlt
        exact hin j d' u' hju hjs hj hd' k hk
    · obtain rfl : i = stop := by omega
      rw [fillFrom, if_neg his]
      exact ⟨fun q _ => rfl, fun j _ _ hij hjs => absurd hjs (by omega)⟩

@[simp] theorem source_fill (t : Overlay) (start stop : Nat) (f : UInt8) :
    (t.fill start stop f).source = t.source := rfl

@[simp] theorem widen_fill (t : Overlay) (start stop a b : Nat) (f : UInt8) :
    (t.fill start stop f).widen a b = t.widen a b := rfl

/-- A fill of valid bytes between boundaries of the view changes nothing outside the widened
range and writes the fill byte over each byte of every character in it that is not blank. -/
theorem view_fill_spec (t : Overlay) (hv : Valid t.view) {start stop : Nat} (f : UInt8)
    (ha : isBoundary t.view (t.widen start stop).1 = true)
    (hb : isBoundary t.view (t.widen start stop).2 = true) :
    (∀ q, q < (t.widen start stop).1 ∨ (t.widen start stop).2 ≤ q →
      byteAt (t.fill start stop f).view q = byteAt t.view q) ∧
    (∀ j d u, (t.widen start stop).1 ≤ j → j < (t.widen start stop).2 →
      isBoundary t.view j = true → decodeAt t.view j = .char d u →
      ∀ k < u, byteAt (t.fill start stop f).view (j + k) =
        if Text.isBlank d then byteAt t.view (j + k) else f.toNat) := by
  obtain ⟨hab, hbs, -, -⟩ := widen_spec t start stop
  exact fillFrom_spec hv hb (by rw [t.size_view]; exact hbs) _ _ t.view ha hab (Nat.le_refl _) rfl
    fun _ _ => rfl

/-! ### The invariant -/

/-- How a character of the source stands in the view: as it is, or, when it is not blank, as
as many ASCII bytes. -/
def Kept (t : Overlay) (p : Nat) (c : Char) (w : Nat) : Prop :=
  (∀ k < w, byteAt t.view (p + k) = byteAt t.source (p + k)) ∨
    (Text.isBlank c = false ∧ ∀ k < w, byteAt t.view (p + k) < 0x80)

/-- The source is valid UTF-8, and each of its characters is kept in the view. -/
structure Faithful (t : Overlay) : Prop where
  valid : Valid t.source
  kept : ∀ p c w, charAt? t.source p = some (c, w) → t.Kept p c w

theorem faithful_ofString (s : String) : (ofString s).Faithful :=
  ⟨valid_toUTF8 s, fun _ _ _ _ => Or.inl fun _ _ => rfl⟩

/-- Every boundary of the source is a boundary of the view. -/
theorem Faithful.isBoundary_view (h : t.Faithful) {i : Nat} (hi : isBoundary t.source i = true) :
    isBoundary t.view i = true := by
  have hle := Program.isBoundary_le hi
  by_cases hlt : i < t.source.size
  · by_cases h0 : i = 0
    · simp [isBoundary, h0]
    · -- a character of the source starts at `i`
      obtain ⟨c, w, hd, -⟩ := h.valid i hlt hi
      have hw := width_pos_of_decodeAt hd
      rcases h.kept i c w (charAt?_eq_some_iff.2 ⟨hlt, hd⟩) with hsame | ⟨-, hascii⟩
      · have hbyte := hsame 0 hw
        rw [Nat.add_zero] at hbyte
        unfold isBoundary at hi ⊢
        rw [hbyte, t.size_view]
        exact hi
      · exact isBoundary_of_lt (by rw [t.size_view]; exact hlt) (by simpa using hascii 0 hw)
  · simp [isBoundary, show i = t.source.size by omega, t.size_view]

/-- The view is valid UTF-8: a kept character reads as itself, and an ASCII byte as a
character of its own. -/
theorem Faithful.valid_view (h : t.Faithful) : Valid t.view := by
  intro j hj hjb
  have hjs : j < t.source.size := t.size_view ▸ hj
  obtain ⟨p, c, w, hpj, hjp, hd, -, hend⟩ := h.valid.exists_char_mem hjs
  have hp : charAt? t.source p = some (c, w) := charAt?_eq_some_iff.2 ⟨by omega, hd⟩
  have hpw := charAt?_stop_le hp
  rcases h.kept p c w hp with hsame | ⟨-, hascii⟩
  · -- kept as it is: only its first byte starts a character
    obtain rfl : j = p := by
      by_contra hne
      have hcont := decodeAt_char_tail hd (k := j - p) (by omega) (by omega)
      rw [← hsame (j - p) (by omega), show p + (j - p) = j by omega] at hcont
      rw [isBoundary_of_isCont (by omega) hcont] at hjb
      cases hjb
    exact ⟨c, w, decodeAt_congr hd hsame, h.isBoundary_view hend⟩
  · -- ASCII bytes: one character each
    have hascii' : ∀ q, p ≤ q → q < p + w → byteAt t.view q < 0x80 := fun q hpq hqw => by
      simpa [show p + (q - p) = q by omega] using hascii (q - p) (by omega)
    refine ⟨_, 1, decodeAt_of_lt (hascii' j hpj hjp), ?_⟩
    by_cases hnext : j + 1 < p + w
    · exact isBoundary_of_lt (by rw [t.size_view]; omega) (hascii' (j + 1) (by omega) hnext)
    · rw [show j + 1 = p + w by omega]
      exact h.isBoundary_view hend

/-- A fill with an ASCII byte keeps the invariant. -/
theorem Faithful.fill (h : t.Faithful) {f : UInt8} (hf : f.toNat < 0x80) (start stop : Nat) :
    (t.fill start stop f).Faithful := by
  obtain ⟨-, -, ha, hb⟩ := widen_spec t start stop
  obtain ⟨hout, hin⟩ := view_fill_spec t h.valid_view f (h.isBoundary_view ha) (h.isBoundary_view hb)
  refine ⟨h.valid, fun p c w hp => ?_⟩
  rw [source_fill] at hp
  obtain ⟨hps, hd⟩ := charAt?_eq_some_iff.1 hp
  have hpb : isBoundary t.source p = true := isBoundary_of_decodeAt hps hd
  by_cases hinside : (t.widen start stop).1 ≤ p ∧ p < (t.widen start stop).2
  · -- inside the range the fill sees the character as the view holds it
    rcases h.kept p c w hp with hsame | ⟨hnb, hascii⟩
    · have hdv : decodeAt t.view p = .char c w := decodeAt_congr hd hsame
      by_cases hblank : Text.isBlank c
      · left
        intro k hk
        rw [source_fill, hin p c w hinside.1 hinside.2 (h.isBoundary_view hpb) hdv k hk,
          if_pos hblank, hsame k hk]
      · right
        refine ⟨by simpa using hblank, fun k hk => ?_⟩
        rw [hin p c w hinside.1 hinside.2 (h.isBoundary_view hpb) hdv k hk, if_neg hblank]
        exact hf
    · right
      refine ⟨hnb, fun k hk => ?_⟩
      have hpw := charAt?_stop_le hp
      have hq : p + k < t.view.size := by rw [t.size_view]; omega
      have hpw' : p + k < (t.widen start stop).2 := by
        have := char_end_le hd hb hinside.2
        omega
      have hbyte := hin (p + k) _ 1 (by omega) hpw' (isBoundary_of_lt hq (hascii k hk))
        (decodeAt_of_lt (hascii k hk)) 0 (by omega)
      rw [Nat.add_zero] at hbyte
      rw [hbyte]
      split
      · exact hascii k hk
      · exact hf
  · -- outside the range the character's bytes are untouched
    have hout' : ∀ k < w, byteAt (t.fill start stop f).view (p + k) = byteAt t.view (p + k) := by
      intro k hk
      refine hout _ ?_
      rcases Nat.lt_or_ge p (t.widen start stop).1 with hpa | hpa
      · have := char_end_le hd ha hpa
        omega
      · omega
    rcases h.kept p c w hp with hsame | ⟨hnb, hascii⟩
    · exact Or.inl fun k hk => by rw [hout' k hk, source_fill, hsame k hk]
    · exact Or.inr ⟨hnb, fun k hk => by rw [hout' k hk]; exact hascii k hk⟩

/-! ### Masking a range -/

/-- After a fill, every character the view reads at a boundary inside the widened range is a
blank or the fill byte. -/
theorem Faithful.char_fill (h : t.Faithful) {f : UInt8} (hf : f.toNat < 0x80) {start stop j u : Nat}
    {d : Char} (hja : (t.widen start stop).1 ≤ j) (hjb : j < (t.widen start stop).2)
    (hj : isBoundary (t.fill start stop f).view j = true)
    (hd : decodeAt (t.fill start stop f).view j = .char d u) :
    d = Char.ofNat f.toNat ∨ Text.isBlank d = true := by
  obtain ⟨-, hbs, ha, hb⟩ := widen_spec t start stop
  have hva := h.isBoundary_view ha
  obtain ⟨-, hin⟩ := view_fill_spec t h.valid_view f hva (h.isBoundary_view hb)
  -- the character of the view before the fill that holds `j`
  obtain ⟨p, c, w, hpj, hjp, hc, hpb, -⟩ := h.valid_view.exists_char_mem
    (show j < t.view.size by rw [t.size_view]; exact Nat.lt_of_lt_of_le hjb hbs)
  have hap : (t.widen start stop).1 ≤ p := by
    by_contra hlt
    have := char_end_le hc hva (by omega)
    omega
  have hbytes := hin p c w hap (by omega) hpb hc
  by_cases hblank : Text.isBlank c
  · -- a blank is kept as it is, so `j` is its start
    have hsame : ∀ k < w, byteAt (t.fill start stop f).view (p + k) = byteAt t.view (p + k) :=
      fun k hk => by rw [hbytes k hk, if_pos hblank]
    obtain rfl : j = p := by
      by_contra hne
      have hcont := decodeAt_char_tail hc (k := j - p) (by omega) (by omega)
      rw [← hsame (j - p) (by omega), show p + (j - p) = j by omega] at hcont
      rw [isBoundary_of_isCont (by omega) hcont] at hj
      cases hj
    rw [decodeAt_congr hc hsame] at hd
    obtain ⟨rfl, -⟩ := Item.char.inj hd
    exact Or.inr hblank
  · -- anything else is now fill bytes, one character each
    have hbyte := hbytes (j - p) (by omega)
    rw [show p + (j - p) = j by omega, if_neg hblank] at hbyte
    rw [decodeAt_of_lt (by rw [hbyte]; exact hf), hbyte] at hd
    exact Or.inl (Item.char.inj hd).1.symm

/-- After masking a range, the view of its widened range reads as blanks and mask characters
only. -/
theorem Faithful.slice_mask (h : t.Faithful) (start stop : Nat) :
    ∀ d ∈ (Utf8.slice (t.mask start stop).view (t.widen start stop).1
      (t.widen start stop).2).toList, d = Char.ofNat 0x1a ∨ Text.isBlank d = true := by
  intro d hd
  obtain ⟨hab, hbs, ha, -⟩ := widen_spec t start stop
  have hm := h.fill (f := maskByte) (by decide) start stop
  unfold Utf8.slice at hd
  rcases hm.valid_view.mem_decodeFrom (Nat.min_le_right _ _) _ _ _ d (hm.isBoundary_view ha) hd with
    hnil | ⟨j, u, hja, hjs, hj, hdj⟩
  · simp at hnil
  · exact h.char_fill (by decide) hja (Nat.lt_of_lt_of_le hjs (Nat.min_le_left _ _)) hj hdj

/-- Masking a range leaves nothing unmasked in it. -/
theorem Faithful.hasUnmasked_mask (h : t.Faithful) (start stop : Nat) :
    (t.mask start stop).hasUnmasked start stop = false := by
  have hslice := h.slice_mask start stop
  unfold hasUnmasked
  generalize hw : (t.mask start stop).widen start stop = ab
  obtain ⟨a, b⟩ := ab
  rw [show (t.mask start stop).widen start stop = t.widen start stop from rfl] at hw
  rw [hw] at hslice
  rw [List.any_eq_false]
  intro d hd
  rcases hslice d hd with rfl | hblank
  · simp
  · simp [hblank]

/-! ### Positions that show nothing -/

/-- A position of the view that shows the mask character or a blank. -/
def Hidden (t : Overlay) (j : Nat) : Prop :=
  ∃ d w, charAt? t.view j = some (d, w) ∧ (d = Char.ofNat 0x1a ∨ Text.isBlank d = true)

/-- A fill byte that shows nothing: the mask byte, or an ASCII blank. -/
def Hides (f : UInt8) : Prop :=
  f = maskByte ∨ (f.toNat < 0x80 ∧ Text.isBlank (Char.ofNat f.toNat) = true)

theorem Hides.lt (hf : Hides f) : f.toNat < 0x80 := by
  rcases hf with rfl | ⟨h, -⟩
  · decide
  · exact h

/-- A fill that shows nothing keeps hidden what was hidden. -/
theorem Hidden.fill (h : t.Faithful) {f : UInt8} (hf : Hides f) {j : Nat} (hj : t.Hidden j)
    (start stop : Nat) : (t.fill start stop f).Hidden j := by
  obtain ⟨d, w, hc, hd⟩ := hj
  obtain ⟨hjs, hdec⟩ := charAt?_eq_some_iff.1 hc
  obtain ⟨-, -, ha, hb⟩ := widen_spec t start stop
  have hva := h.isBoundary_view ha
  obtain ⟨hout, hin⟩ := view_fill_spec t h.valid_view f hva (h.isBoundary_view hb)
  have hjs' : j < (t.fill start stop f).view.size := by
    rw [(t.fill start stop f).size_view, source_fill, ← t.size_view]
    exact hjs
  by_cases hinside : (t.widen start stop).1 ≤ j ∧ j < (t.widen start stop).2
  · have hbytes := hin j d w hinside.1 hinside.2 (isBoundary_of_decodeAt hjs hdec) hdec
    by_cases hblank : Text.isBlank d
    · -- a blank is kept as it is
      refine ⟨d, w, charAt?_eq_some_iff.2 ⟨hjs', decodeAt_congr hdec fun k hk => ?_⟩, hd⟩
      rw [hbytes k hk, if_pos hblank]
    · -- the mask character, one byte, becomes the fill byte
      have hmask : d = Char.ofNat 0x1a := hd.resolve_right (by simpa using hblank)
      have hw : w = 1 := by rw [← decodeAt_char_utf8Size hdec, hmask]; decide
      subst hw
      have hbyte := hbytes 0 (by omega)
      rw [Nat.add_zero, if_neg hblank] at hbyte
      refine ⟨Char.ofNat f.toNat, 1,
        charAt?_eq_some_iff.2 ⟨hjs', by rw [decodeAt_of_lt (by rw [hbyte]; exact hf.lt), hbyte]⟩, ?_⟩
      rcases hf with rfl | ⟨-, hblank'⟩
      · exact Or.inl rfl
      · exact Or.inr hblank'
  · -- outside the range the character's bytes are untouched
    refine ⟨d, w, charAt?_eq_some_iff.2 ⟨hjs', decodeAt_congr hdec fun k hk => hout _ ?_⟩, hd⟩
    rcases Nat.lt_or_ge j (t.widen start stop).1 with hja | hja
    · have := char_end_le hdec hva hja
      omega
    · omega

/-! ### Edits -/

/-- Every match-masking pass is a run of fills with its byte. -/
theorem maskAllWithByte_induction {P : Overlay → Prop} {f : UInt8}
    (hfill : ∀ t start stop, P t → P (t.fill start stop f)) (prog : Program) {t : Overlay}
    (ht : P t) : P (t.maskAllWithByte prog f).1 := by
  unfold maskAllWithByte
  dsimp only
  generalize (t.findAll prog).filterMap _ = ranges
  induction ranges generalizing t with
  | nil => exact ht
  | cons r rs ih =>
    obtain ⟨a, b⟩ := r
    exact ih (hfill t a b ht)

/-- Masking again and again is a run of masking passes. -/
theorem maskRepeatedly_induction_pass {P : Overlay → Prop} {prog : Program}
    (hpass : ∀ t, P t → P (t.maskAll prog).1) {t : Overlay} (ht : P t) :
    P (t.maskRepeatedly prog) := by
  unfold maskRepeatedly
  generalize t.size + 1 = fuel
  induction fuel generalizing t with
  | zero => exact ht
  | succ fuel ih =>
    have hp : P (t.maskAll prog).1 := hpass t ht
    rw [maskRepeatedly.go]
    rcases hm : t.maskAll prog with ⟨t', changed⟩
    rw [hm] at hp
    dsimp only
    split
    · exact ih hp
    · exact hp

/-- Masking again and again is a run of mask fills. -/
theorem maskRepeatedly_induction {P : Overlay → Prop}
    (hfill : ∀ t start stop, P t → P (t.fill start stop maskByte)) (prog : Program) {t : Overlay}
    (ht : P t) : P (t.maskRepeatedly prog) :=
  maskRepeatedly_induction_pass (fun _ hp => maskAllWithByte_induction hfill prog hp) ht

/-- The operations that rewrite the view of an overlay. -/
inductive Edit where
  | mask (start stop : Nat)
  | maskWith (start stop : Nat) (c : Char)
  | maskAll (prog : Program)
  | maskAllWith (prog : Program) (c : Char)
  | maskRepeatedly (prog : Program)

namespace Edit

/-- Applies an edit. -/
def apply : Edit → Overlay → Overlay
  | mask start stop, t => t.mask start stop
  | maskWith start stop c, t => t.maskWith start stop c
  | maskAll prog, t => (t.maskAll prog).1
  | maskAllWith prog c, t => (t.maskAllWith prog c).1
  | maskRepeatedly prog, t => t.maskRepeatedly prog

/-- Applies edits in order. -/
def applyAll (edits : List Edit) (t : Overlay) : Overlay :=
  edits.foldl (fun t e => e.apply t) t

/-- The byte an edit writes over what it masks: a one-byte character as itself, and the mask
byte for anything else. -/
def fillByte : Edit → UInt8
  | maskWith _ _ c | maskAllWith _ c => if c.toNat < 128 then c.toNat.toUInt8 else maskByte
  | mask .. | maskAll _ | maskRepeatedly _ => maskByte

theorem fillByte_lt (e : Edit) : e.fillByte.toNat < 0x80 := by
  have hchar : ∀ c : Char, (if c.toNat < 128 then c.toNat.toUInt8 else maskByte).toNat < 0x80 := by
    intro c
    split
    · rename_i hc
      rw [Nat.toUInt8_eq, UInt8.toNat_ofNat']
      omega
    · decide
  cases e <;> first | exact hchar _ | exact (show maskByte.toNat < 0x80 by decide)

/-- An edit is a run of fills with its byte. -/
theorem apply_induction {P : Overlay → Prop} (e : Edit)
    (hfill : ∀ t start stop, P t → P (t.fill start stop e.fillByte)) {t : Overlay} (ht : P t) :
    P (e.apply t) := by
  cases e with
  | mask start stop => exact hfill t start stop ht
  | maskWith start stop c => exact hfill t start stop ht
  | maskAll prog => exact maskAllWithByte_induction hfill prog ht
  | maskAllWith prog c => exact maskAllWithByte_induction hfill prog ht
  | maskRepeatedly prog => exact maskRepeatedly_induction hfill prog ht

theorem source_apply (e : Edit) (t : Overlay) : (e.apply t).source = t.source :=
  e.apply_induction (P := fun t' => t'.source = t.source) (fun _ _ _ h => h) rfl

end Edit

theorem Faithful.edit (h : t.Faithful) (e : Edit) : (e.apply t).Faithful :=
  e.apply_induction (fun _ start stop h => h.fill e.fillByte_lt start stop) h

theorem Hidden.edit (h : t.Faithful) {e : Edit} (hf : Hides e.fillByte) {j : Nat}
    (hj : t.Hidden j) : (e.apply t).Hidden j :=
  (e.apply_induction (P := fun t => t.Faithful ∧ t.Hidden j)
    (fun _ start stop h => ⟨h.1.fill hf.lt start stop, h.2.fill h.1 hf start stop⟩) ⟨h, hj⟩).2

/-- Edits in order keep the invariant and the source. -/
theorem faithful_applyAll : ∀ (edits : List Edit) {t : Overlay}, t.Faithful →
    (Edit.applyAll edits t).Faithful ∧ (Edit.applyAll edits t).source = t.source
  | [], _, h => ⟨h, rfl⟩
  | e :: es, t, h => by
    have hrest := faithful_applyAll es (h.edit e)
    exact ⟨hrest.1, hrest.2.trans (Edit.source_apply e t)⟩

end Overlay

open Overlay in
/-- Masking keeps the text. After any edits of any text: the source is the text and the view
has its length; every boundary of the source is one of the view; each character of the source
stands in the view as it is, or, unless it is blank, as as many ASCII bytes; the widened range
of any range lies in the text with its ends on boundaries of both, so it can be cut out of
either; masking a range leaves only blanks and mask characters in its widened range, nothing
unmasked there, and every byte outside it as it was; and an edit whose fill byte is the mask
byte or an ASCII blank keeps hidden every position that showed the mask character or a
blank. -/
theorem masking_keeps_text (s : String) (edits : List Edit) :
    let t := Edit.applyAll edits (ofString s)
    t.source = s.toUTF8 ∧ t.view.size = t.source.size ∧
    (∀ i, Utf8.isBoundary t.source i = true → Utf8.isBoundary t.view i = true) ∧
    (∀ p c w, Utf8.charAt? t.source p = some (c, w) →
      (Text.isBlank c = true → ∀ k < w, Utf8.byteAt t.view (p + k) = Utf8.byteAt t.source (p + k)) ∧
      ((∀ k < w, Utf8.byteAt t.view (p + k) = Utf8.byteAt t.source (p + k)) ∨
        ∀ k < w, Utf8.byteAt t.view (p + k) < 0x80)) ∧
    (∀ start stop, (t.widen start stop).1 ≤ (t.widen start stop).2 ∧
      (t.widen start stop).2 ≤ t.size ∧
      Utf8.isBoundary t.source (t.widen start stop).1 = true ∧
      Utf8.isBoundary t.source (t.widen start stop).2 = true ∧
      Utf8.isBoundary t.view (t.widen start stop).1 = true ∧
      Utf8.isBoundary t.view (t.widen start stop).2 = true) ∧
    (∀ start stop,
      (∀ d ∈ (Utf8.slice (t.mask start stop).view (t.widen start stop).1
        (t.widen start stop).2).toList, d = Char.ofNat 0x1a ∨ Text.isBlank d = true) ∧
      (t.mask start stop).hasUnmasked start stop = false ∧
      ∀ q, q < (t.widen start stop).1 ∨ (t.widen start stop).2 ≤ q →
        Utf8.byteAt (t.mask start stop).view q = Utf8.byteAt t.view q) ∧
    ∀ e : Edit, Hides e.fillByte → ∀ j, t.Hidden j → (e.apply t).Hidden j := by
  intro t
  obtain ⟨h, hsrc⟩ := faithful_applyAll edits (faithful_ofString s)
  have hkept : ∀ p c w, Utf8.charAt? t.source p = some (c, w) → t.Kept p c w := h.kept
  refine ⟨hsrc, t.size_view, fun i hi => h.isBoundary_view hi, fun p c w hp => ?_,
    fun start stop => ?_, fun start stop => ?_, fun e he j hj => Hidden.edit h he hj⟩
  · rcases hkept p c w hp with hsame | ⟨hnb, hascii⟩
    · exact ⟨fun _ => hsame, Or.inl hsame⟩
    · exact ⟨fun hb => absurd hb (by simp [hnb]), Or.inr hascii⟩
  · obtain ⟨hab, hbs, ha, hb⟩ := widen_spec t start stop
    exact ⟨hab, hbs, ha, hb, h.isBoundary_view ha, h.isBoundary_view hb⟩
  · obtain ⟨-, -, ha, hb⟩ := widen_spec t start stop
    exact ⟨h.slice_mask start stop, h.hasUnmasked_mask start stop,
      (view_fill_spec t h.valid_view maskByte (h.isBoundary_view ha) (h.isBoundary_view hb)).1⟩

end Lineage
