import Lineage.Proofs.Pattern.Leads
import Lineage.Proofs.Overlay.Showing
import Lineage.Text.Trim
import Mathlib.Data.String.Basic
/-!
Reading the source through the view.

The scanners search the view and read what they record out of the source, cut at the same
offsets. Masking with the mask byte writes nothing else, so every byte of the view is the
source's or the mask byte (`Overlay.OnlyMasked`). A character of the view other than the mask
character holds no mask byte, so the source holds the same character at the same offset
(`Overlay.OnlyMasked.charAt?_source`); in particular blanks read in the view are blanks of the
source.

So where the view reads blanks from `a` up to a character that shows at `k`, the source text
cut from `a` starts with those blanks and then that character, and trimming its leading
blanks takes off exactly `k - a` bytes (`Overlay.OnlyMasked.leading_sourceSlice`).
-/
namespace Lineage

namespace Utf8

variable {bs : ByteArray} {i w : Nat} {c : Char}

/-- A character other than the one of an ASCII byte holds no such byte. -/
theorem byteAt_ne_of_decodeAt {b : Nat} (h : decodeAt bs i = .char c w) (hb : b < 0x80)
    (hc : c ≠ Char.ofNat b) {j : Nat} (hj : j < w) : byteAt bs (i + j) ≠ b := by
  intro hbyte
  rcases Nat.eq_zero_or_pos j with rfl | hj0
  · -- an ASCII first byte is the whole character
    rw [Nat.add_zero] at hbyte
    rw [decodeAt_of_lt (by omega), hbyte] at h
    exact hc (Item.char.inj h).1.symm
  · -- a later byte continues the character, and no ASCII byte does
    have hcont := decodeAt_char_tail h hj0 hj
    rw [hbyte] at hcont
    simp only [isCont, Bool.and_eq_true, decide_eq_true_eq] at hcont
    omega

/-- Reading on from `i` adds to what was read before. -/
theorem toList_decodeFrom (bs : ByteArray) (stop : Nat) :
    ∀ (fuel i : Nat) (acc : String),
      (decodeFrom bs stop fuel i acc).toList = acc.toList ++ (decodeFrom bs stop fuel i "").toList
  | 0, _, _ => by simp [decodeFrom]
  | fuel + 1, i, acc => by
    unfold decodeFrom
    split
    · split
      all_goals
        rw [toList_decodeFrom bs stop fuel _ (acc.push _),
          toList_decodeFrom bs stop fuel _ ("".push _)]
        simp [String.toList_push]
    · simp

/-- Reading from `i` over blanks up to a character `c` gives those blanks, as many bytes of
them as lie between, and then `c`. -/
theorem toList_decodeFrom_of_blankRun {stop k : Nat} (hrun : BlankRun bs i k)
    (hc : charAt? bs k = some (c, w)) (hstop : k + w ≤ stop) :
    ∀ fuel, stop - i ≤ fuel → ∃ bl rest, (decodeFrom bs stop fuel i "").toList = bl ++ c :: rest ∧
      (∀ b ∈ bl, Text.isBlank b = true) ∧ String.utf8Len bl = k - i := by
  have hw := charAt?_width_pos hc
  induction hrun with
  | nil i =>
    intro fuel hfuel
    obtain ⟨fuel, rfl⟩ : ∃ f, fuel = f + 1 := ⟨fuel - 1, by omega⟩
    rw [decodeFrom, if_pos (by omega), (charAt?_eq_some_iff.1 hc).2, toList_decodeFrom]
    exact ⟨[], (decodeFrom bs stop fuel (i + w) "").toList, by simp, by simp, by simp⟩
  | @cons i k w' b hb hblank hrun ih =>
    intro fuel hfuel
    have hle := hrun.le
    have hw' := charAt?_width_pos hb
    obtain ⟨fuel, rfl⟩ : ∃ f, fuel = f + 1 := ⟨fuel - 1, by omega⟩
    rw [decodeFrom, if_pos (by omega), (charAt?_eq_some_iff.1 hb).2, toList_decodeFrom]
    obtain ⟨bl, rest, hlist, hbl, hlen⟩ := ih hc hstop fuel (by omega)
    refine ⟨b :: bl, rest, by simp [hlist], ?_, ?_⟩
    · intro x hx
      rcases List.mem_cons.1 hx with rfl | hx
      · exact hblank
      · exact hbl x hx
    · rw [String.utf8Len_cons, hlen, decodeAt_char_utf8Size (charAt?_eq_some_iff.1 hb).2]
      omega

end Utf8

namespace Text

/-- Trimming a text that starts with blanks and then a character that is no blank takes off
the bytes of those blanks. -/
theorem utf8ByteSize_sub_trimStart {s : String} {bl rest : List Char} {c : Char}
    (hs : s.toList = bl ++ c :: rest) (hbl : ∀ b ∈ bl, isBlank b = true) (hc : isBlank c = false) :
    s.utf8ByteSize - (trimStart s).utf8ByteSize = String.utf8Len bl := by
  have hsize : s.utf8ByteSize = String.utf8Len s.toList := by
    rw [← String.utf8ByteSize_ofList, String.ofList_toList]
  unfold trimStart
  rw [String.utf8ByteSize_ofList, hsize, hs, List.dropWhile_append_of_pos hbl,
    List.dropWhile_cons_of_neg (by simp [hc]), String.utf8Len_append]
  omega

end Text

namespace Overlay

open Utf8

variable {t : Overlay}

/-- Every byte of the view is the source's or the mask byte. -/
def OnlyMasked (t : Overlay) : Prop :=
  ∀ q, byteAt t.view q = byteAt t.source q ∨ byteAt t.view q = maskByte.toNat

theorem onlyMasked_ofString (s : String) : (ofString s).OnlyMasked := fun _ => .inl rfl

theorem OnlyMasked.mask (h : t.OnlyMasked) (start stop : Nat) : (t.mask start stop).OnlyMasked := by
  intro q
  rcases byteAt_view_fill t start stop maskByte q with hq | hq
  · rcases h q with hs | hm
    · exact .inl (hq.trans hs)
    · exact .inr (hq.trans hm)
  · exact .inr hq

theorem OnlyMasked.maskAll (h : t.OnlyMasked) (prog : Program) : (t.maskAll prog).1.OnlyMasked :=
  maskAllWithByte_induction (fun t start stop (ht : t.OnlyMasked) => ht.mask start stop) prog h

/-- A character of the view other than the mask character is the source's. -/
theorem OnlyMasked.charAt?_source (h : t.OnlyMasked) {k w : Nat} {c : Char}
    (hc : charAt? t.view k = some (c, w)) (hne : c ≠ Char.ofNat 0x1a) :
    charAt? t.source k = some (c, w) := by
  obtain ⟨hk, hd⟩ := charAt?_eq_some_iff.1 hc
  refine charAt?_eq_some_iff.2 ⟨t.size_view ▸ hk, decodeAt_congr hd fun j hj => ?_⟩
  rcases h (k + j) with hsame | hmask
  · exact hsame.symm
  · exact absurd hmask (byteAt_ne_of_decodeAt (b := maskByte.toNat) hd (by decide) hne hj)

theorem OnlyMasked.blankRun_source (h : t.OnlyMasked) {i k : Nat} (hrun : BlankRun t.view i k) :
    BlankRun t.source i k := by
  induction hrun with
  | nil i => exact .nil i
  | cons hc hb _ ih =>
    refine .cons (h.charAt?_source hc fun heq => ?_) hb ih
    rw [heq] at hb
    exact absurd hb (by decide)

theorem boundaryBelow_of_isBoundary {bs : ByteArray} {i : Nat} (h : isBoundary bs i = true) :
    boundaryBelow bs i = i := by
  cases i with
  | zero => rfl
  | succ i => rw [boundaryBelow, if_pos h]

/-- Where the view reads blanks from `a` up to a character that shows at `k`, the source text
cut from `a` starts with as many bytes of blanks, and trimming takes off just those. -/
theorem OnlyMasked.leading_sourceSlice (h : t.OnlyMasked) {a b k w : Nat} {c : Char}
    (hrun : BlankRun t.view a k) (hk : charAt? t.view k = some (c, w)) (hc : Shows c)
    (hb : k + w ≤ b) (hbs : b ≤ t.size) :
    (t.sourceSlice a b).utf8ByteSize - (Text.trimStart (t.sourceSlice a b)).utf8ByteSize =
      k - a := by
  have hrun' := h.blankRun_source hrun
  have hk' := h.charAt?_source hk hc.1
  have hak := hrun.le
  -- the cut starts at `a`, where the source holds a character
  have hstart : ∃ c' w', charAt? t.source a = some (c', w') := by
    cases hrun' with
    | nil => exact ⟨c, w, hk'⟩
    | cons hc' _ _ => exact ⟨_, _, hc'⟩
  obtain ⟨c', w', hca⟩ := hstart
  obtain ⟨has, hda⟩ := charAt?_eq_some_iff.1 hca
  have ha : (t.widen a b).1 = a := by
    unfold widen
    dsimp only
    rw [Nat.min_eq_left (Nat.le_of_lt has)]
    exact boundaryBelow_of_isBoundary (isBoundary_of_decodeAt has hda)
  have hb' : b ≤ (t.widen a b).2 := by
    have := min_le_widen_snd t a b
    rwa [Nat.min_eq_left hbs] at this
  have hslice : t.sourceSlice a b =
      Utf8.slice t.source (t.widen a b).1 (t.widen a b).2 := rfl
  rw [ha] at hslice
  have hsize : t.source.size = t.size := rfl
  obtain ⟨bl, rest, hlist, hbl, hlen⟩ := toList_decodeFrom_of_blankRun hrun' hk'
    (show k + w ≤ min (t.widen a b).2 t.source.size by omega) ((t.widen a b).2 - a) (by omega)
  rw [hslice, Utf8.slice, Text.utf8ByteSize_sub_trimStart hlist hbl hc.2, hlen]

end Overlay

end Lineage
