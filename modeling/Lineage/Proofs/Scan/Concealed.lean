import Lineage.Proofs.Scan.Nesting
import Lineage.Proofs.Scan.Censoring
/-!
What the first masking pass hides stays hidden.

The scanners mask comments and literals first, then read names in views that only mask more.
Each region the first pass masks stays concealed in every later view (`Overlay.Concealed`):
the byte where it starts is the mask byte, and no character that shows starts inside it.

* `Overlay.concealed_maskAll`: a pass whose pattern starts every match with a printable
  character conceals each region it masks;
* `Overlay.Concealed.mask`, `Overlay.Concealed.maskAll`: masking with the mask byte keeps a
  region concealed; so does blanking line continuations
  (`Overlay.Concealed.maskAllWith_continuation`), which writes only over the backslash and
  line feed it reads, and a region's first byte is neither;
* `Overlay.Concealed.apart`: a stretch of the view that holds no mask byte and starts with a
  printable character (`Overlay.Legible`) meets no concealed region: the region's first byte
  would lie in the stretch, or the stretch's first character in the region;
* `Overlay.legible_of_matches`: a match of a pattern that reads legibly
  (`Pattern.ReadsLegibly`) is legible, and `Overlay.Legible.of_slice` carries a legible
  stretch of a group's text over to the whole text.
-/
namespace Lineage

/-- A printable ASCII character: no blank, no control character, one byte. -/
def Printable (c : Char) : Prop := 0x20 < c.toNat ∧ c.toNat < 0x80

namespace Pattern

/-- A pattern whose matches are legible: it reads no mask character, and a match that reads
something starts with a printable character. -/
structure ReadsLegibly (p : Pattern) : Prop where
  unmasked : ReadsOnly (· ≠ Char.ofNat 0x1a) p
  printable : StartsWith Printable p

end Pattern

namespace Overlay

open Utf8 Pattern

/-- The region from `start` to `stop` is hidden in `t`: its first byte is the mask byte, over
an ASCII byte of the source, and no character that shows starts inside it. -/
structure Concealed (t : Overlay) (start stop : Nat) : Prop where
  first : byteAt t.view start = maskByte.toNat
  ascii : byteAt t.source start < 0x80
  hidden : ∀ k, start ≤ k → k < stop → t.showsAt k = false

/-- A stretch of the view from `i` to `j` that holds no mask byte and, when it is not empty,
starts with a printable character and ends inside the text. -/
structure Legible (t : Overlay) (i j : Nat) : Prop where
  unmasked : ∀ q, i ≤ q → q < j → byteAt t.view q ≠ maskByte.toNat
  first : i < j → 0x20 < byteAt t.view i ∧ byteAt t.view i < 0x80
  within : i < j → j ≤ t.size

variable {t : Overlay} {a b : Nat}

/-! ### Kept by later masks -/

theorem Concealed.mask (h : t.Concealed a b) (start stop : Nat) :
    (t.mask start stop).Concealed a b where
  first := by
    rcases byteAt_view_fill t start stop maskByte a with e | e
    · exact e.trans h.first
    · exact e
  ascii := h.ascii
  hidden k h₁ h₂ := showsAt_mask_of_false (h.hidden k h₁ h₂)

theorem Concealed.maskAll (h : t.Concealed a b) (prog : Program) :
    (t.maskAll prog).1.Concealed a b :=
  maskAllWithByte_induction (P := fun t => t.Concealed a b)
    (fun _ start stop ht => ht.mask start stop) prog h

/-- A line continuation reads a backslash and then a line feed. -/
theorem continuation_bytes {v : ByteArray} {i j : Nat}
    (h : Matches v Python.lineContinuation i j) :
    byteAt v i = 92 ∧ byteAt v (i + 1) = 10 ∧ j = i + 2 := by
  change Matches v (.seq (.chars (CharSet.range '\\' '\\')) (.chars (CharSet.range '\n' '\n')))
    i j at h
  cases h with
  | seq h₁ h₂ =>
    obtain ⟨b₁, rfl⟩ := h₁.ascii (by decide)
    obtain ⟨b₂, rfl⟩ := h₂.ascii (by decide)
    exact ⟨b₁, b₂, rfl⟩

/-- Blanking line continuations keeps a region concealed: a byte the pass changes lies in one
of the continuations it reads, whose bytes are no mask byte. -/
theorem Concealed.maskAllWith_continuation (hf : t.Faithful) (h : t.Concealed a b) :
    (t.maskAllWith Python.continuationProgram ' ').1.Concealed a b := by
  have hblank : Hides (32 : UInt8) := .inr ⟨by decide, by decide⟩
  have hpass : (t.maskAllWith Python.continuationProgram ' ').1 =
      t.fillRanges ((t.findAll Python.continuationProgram).filterMap fun m =>
        if m.start < m.stop then some (m.start, m.stop) else none) 32 := rfl
  have hsrc : (t.maskAllWith Python.continuationProgram ' ').1.source = t.source :=
    Edit.source_apply (.maskAllWith Python.continuationProgram ' ') t
  rw [hpass] at hsrc ⊢
  refine ⟨?_, by rw [hsrc]; exact h.ascii,
    fun k h₁ h₂ => showsAt_fillRanges_false hblank _ (h.hidden k h₁ h₂)⟩
  by_contra hne
  -- the changed byte lies in the widened range of a continuation
  obtain ⟨r, hr, hin⟩ := hf.mem_widen_of_fillRanges (by decide) (fun e => hne (e.trans h.first))
  obtain ⟨m, hm, hlt, rfl⟩ := mem_ranges hr
  obtain ⟨h92, h10, hstop⟩ := continuation_bytes (Program.mem_findAll_matches hm)
  have ha : a < t.size := by
    have hview : a < t.view.size := lt_size_of_byteAt_pos (by rw [h.first]; decide)
    rwa [t.size_view] at hview
  -- the region's first byte is neither the backslash nor the line feed
  have hout : a < m.start ∨ m.stop ≤ a := by
    by_contra hin'
    rcases (show a = m.start ∨ a = m.start + 1 by omega) with rfl | rfl
    · exact absurd (h92.symm.trans h.first) (by decide)
    · exact absurd (h10.symm.trans h.first) (by decide)
  rcases outside_widen_of_ascii hf.valid ha h.ascii (Nat.le_of_lt hlt) hout with hout | hout
  · exact absurd hin.1 (Nat.not_le.2 hout)
  · exact absurd hin.2 (Nat.not_lt.2 hout)

/-! ### Where the first pass leaves them -/

/-- The first pass conceals each nonempty region it masks, when its pattern starts every match
with a printable character. -/
theorem concealed_maskAll {p : Pattern} (hp : StartsWith Printable p) (s : String) {m : Match}
    (hm : m ∈ (ofString s).findAll p.compile) (hlt : m.start < m.stop) :
    ((ofString s).maskAll p.compile).1.Concealed m.start m.stop := by
  have hmatch := Program.mem_findAll_matches hm
  have hstop : m.stop ≤ (ofString s).size := (mem_findAll_inside hm).stop_le
  obtain ⟨c, w, hc, hpc⟩ := hmatch.startsWith hp hlt
  have hbyte : byteAt (ofString s).view m.start = c.toNat := (charAt?_ascii hc hpc.2).1
  have hsrc : ((ofString s).maskAll p.compile).1.source = (ofString s).view :=
    Edit.source_apply (.maskAll p.compile) (ofString s)
  -- every character that showed in the region is masked
  have hhidden : ∀ k, m.start ≤ k → k < m.stop →
      ((ofString s).maskAll p.compile).1.showsAt k = false := by
    intro k h₁ h₂
    cases hk : (ofString s).showsAt k with
    | false => exact showsAt_maskAll_of_false _ hk
    | true =>
      obtain ⟨ha, hb⟩ := mem_widen h₁ h₂ (Nat.lt_of_lt_of_le h₂ hstop)
      exact showsAt_maskAll_of_mem hm hlt hk ha hb
  refine ⟨?_, by rw [hsrc, hbyte]; exact hpc.2, hhidden⟩
  -- the printable first byte would show, so it was masked
  rcases ((onlyMasked_ofString s).maskAll p.compile) m.start with e | e
  · have hshows := showsAt_of_printable (t := ((ofString s).maskAll p.compile).1)
      (q := m.start) (by rw [e, hsrc, hbyte]; exact hpc.1) (by rw [e, hsrc, hbyte]; exact hpc.2)
    rw [hhidden m.start (Nat.le_refl _) hlt] at hshows
    cases hshows
  · exact e

/-! ### Names read outside -/

/-- A legible stretch meets no concealed region. -/
theorem Concealed.apart (h : t.Concealed a b) {i j : Nat} (hl : t.Legible i j) :
    ∀ q, i ≤ q → q < j → ¬ (a ≤ q ∧ q < b) := by
  rintro q hiq hqj ⟨haq, hqb⟩
  by_cases hia : i ≤ a
  · -- the region's first byte lies in the stretch
    exact hl.unmasked a hia (by omega) h.first
  · -- the stretch's first character lies in the region
    obtain ⟨h₁, h₂⟩ := hl.first (by omega)
    have hshows := showsAt_of_printable (t := t) h₁ h₂
    rw [h.hidden i (by omega) (by omega)] at hshows
    cases hshows

/-- A match of a pattern that reads legibly is legible. -/
theorem legible_of_matches {p : Pattern} (hp : p.ReadsLegibly) {i j : Nat}
    (h : Matches t.view p i j) : t.Legible i j where
  unmasked := h.byteAt_ne hp.unmasked (by decide)
  first hij := by
    obtain ⟨c, w, hc, hpc⟩ := h.startsWith hp.printable hij
    rw [(charAt?_ascii hc hpc.2).1]
    exact hpc
  within hij := by
    -- the last offset lies in a character read, which lies in the text
    obtain ⟨k, c, w, hk, hkw, hc, -⟩ := h.readsOnly hp.unmasked (j - 1) (by omega) (by omega)
    have hend := charAt?_end_le hc
    show j ≤ t.source.size
    rw [← t.size_view]
    omega

theorem byteAt_extract {bs : ByteArray} {i k q : Nat} (hq : q < k - i) (hk : k ≤ bs.size) :
    byteAt (bs.extract i k) q = byteAt bs (i + q) := by
  have hq' : q < (bs.extract i k).size := by simp; omega
  unfold byteAt
  rw [dif_pos hq', dif_pos (by omega), ByteArray.getElem_extract]

theorem view_slice (t : Overlay) (start stop : Nat) :
    (t.slice start stop).view = t.view.extract (t.widen start stop).1 (t.widen start stop).2 :=
  rfl

theorem size_slice (t : Overlay) (start stop : Nat) :
    (t.slice start stop).size = (t.widen start stop).2 - (t.widen start stop).1 := by
  obtain ⟨-, hb, -, -⟩ := widen_spec t start stop
  have hextract : (t.slice start stop).size =
      (t.source.extract (t.widen start stop).1 (t.widen start stop).2).size := rfl
  rw [hextract, ByteArray.size_extract]
  unfold size at hb
  omega

/-- A legible stretch of a group's text is legible in the whole text, moved by where the group's
widened range starts. -/
theorem Legible.of_slice {start stop i j : Nat} (hl : (t.slice start stop).Legible i j) :
    t.Legible ((t.widen start stop).1 + i) ((t.widen start stop).1 + j) := by
  obtain ⟨-, hb, -, -⟩ := widen_spec t start stop
  have hsize := size_slice t start stop
  have hview : ∀ q, q < (t.slice start stop).size → byteAt t.view ((t.widen start stop).1 + q) =
      byteAt (t.slice start stop).view q := fun q hq => by
    rw [view_slice, byteAt_extract (by omega) (by rw [t.size_view]; exact hb)]
  refine ⟨fun q h₁ h₂ => ?_, fun hij => ?_, fun hij => ?_⟩
  · have hj := hl.within (by omega)
    rw [show q = (t.widen start stop).1 + (q - (t.widen start stop).1) by omega,
      hview _ (by omega)]
    exact hl.unmasked _ (by omega) (by omega)
  · have hj := hl.within (by omega)
    rw [hview i (by omega)]
    exact hl.first (by omega)
  · have hj := hl.within (by omega)
    omega

end Overlay

end Lineage
