import Lineage.Proofs.Overlay.Source
import Lineage.Python.Syntax
/-!
Censoring a Python parameter list keeps its top-level commas.

Before reading parameters or bases, the Python scanner masks, again and again, every match
of `paramCensor` in the parameter list: a bracketed part with no opening bracket of its kind
inside, or a lambda up to its colon. The aim is that the commas left showing separate the
entries. They need not be all that is left: the body of a bracketed part may run past the
closing bracket of its own kind to a later one, which masks a closing bracket of an outer
part, whose commas then stay in view. What does hold, for a list whose brackets pair up and
which holds no `lambda`, is the other half: no comma at the top level is ever masked.

Brackets are read by `openBefore`, the stack of brackets open before an offset. The argument
rests on one invariant of the masking passes: a closing bracket still in view has its opening
bracket in view. A match then cannot reach over a top-level comma, since the bracket that
closes it would be opened after the comma, in view, inside the match; and masking a match
keeps the invariant, since a bracket it masks whose closing bracket lies beyond it would
make the match's own closing bracket the closer of a bracket opened inside it.

* `openBefore_history`, `Balanced.openBefore_closer`: what the stack of open brackets can do;
* `Overlay.masked_in_match`: a byte a masking pass changes lies in one of its matches;
* `censor_match`: what a match of the censoring pattern reads;
* `Censored.pass`: a masking pass keeps the invariant;
* `censoring_keeps_top_level_commas`: the main statement.
-/
namespace Lineage

namespace Utf8

/-- A character read with width one is the ASCII character of its byte. -/
theorem byteAt_of_decodeAt_one {bs : ByteArray} {i : Nat} {c : Char}
    (h : decodeAt bs i = .char c 1) : byteAt bs i < 0x80 ∧ c = Char.ofNat (byteAt bs i) := by
  by_cases h0 : byteAt bs i < 0x80
  · rw [decodeAt_of_lt h0] at h
    cases h
    exact ⟨h0, rfl⟩
  · -- every longer form reads more than one byte, or nothing
    unfold decodeAt at h
    dsimp only at h
    rw [if_neg h0] at h
    repeat' split at h
    all_goals simp only [reduceCtorEq, Item.char.injEq] at h
    all_goals omega

/-- An ASCII character read at an offset is its byte, one byte wide. -/
theorem charAt?_ascii {bs : ByteArray} {i w : Nat} {c : Char} (h : charAt? bs i = some (c, w))
    (hc : c.toNat < 0x80) : byteAt bs i = c.toNat ∧ w = 1 := by
  obtain ⟨-, hd⟩ := charAt?_eq_some_iff.1 h
  obtain rfl : w = 1 := by
    rw [← decodeAt_char_utf8Size hd, Char.utf8Size_eq_one_iff]
    exact Nat.le_of_lt_succ hc
  obtain ⟨hb, rfl⟩ := byteAt_of_decodeAt_one hd
  exact ⟨(toNat_ofNat_of_isValidChar (Or.inl (by omega))).symm, rfl⟩

theorem lt_size_of_byteAt_pos {bs : ByteArray} {j : Nat} (h : 0 < byteAt bs j) : j < bs.size := by
  by_contra hlt
  simp [byteAt, hlt] at h

end Utf8

namespace CharSet

/-- A set whose ranges are all code points but one holds every character but that one. -/
theorem sub_ne_of_ranges {s : CharSet} {x : Char}
    (h : s.ranges = #[(0, x.toNat - 1), (x.toNat + 1, 0x10FFFF)]) (hx : 0 < x.toNat) :
    s.Sub (· ≠ x) := by
  intro r hr c h₁ h₂ hcx
  subst hcx
  rw [h] at hr
  simp only [List.mem_toArray, List.mem_cons, List.not_mem_nil, or_false] at hr
  rcases hr with rfl | rfl
  · simp at h₂
    omega
  · simp at h₁

end CharSet

namespace Pattern

open Utf8

/-- A match of one ASCII character reads its byte. -/
theorem Matches.ascii {v : ByteArray} {c : Char} {i j : Nat}
    (h : Matches v (.chars (CharSet.range c c)) i j) (hc : c.toNat < 0x80) :
    byteAt v i = c.toNat ∧ j = i + 1 := by
  cases h with
  | chars hch hs =>
    obtain rfl := (CharSet.range_self_sub c).mem hs
    obtain ⟨hb, rfl⟩ := charAt?_ascii hch hc
    exact ⟨hb, rfl⟩

/-- A match that reads no `x`, an ASCII character, holds no byte of it: the byte would start
a character of its own, since every later byte of a longer character is a continuation byte. -/
theorem Matches.byteAt_ne {v : ByteArray} {p : Pattern} {i j : Nat}
    (h : Matches v p i j) {x : Char} (hp : ReadsOnly (· ≠ x) p)
    (hx : x.toNat < 0x80) : ∀ q, i ≤ q → q < j → byteAt v q ≠ x.toNat := by
  intro q hiq hqj hq
  obtain ⟨k, c, w, hkq, hqk, hc, hne⟩ := h.readsOnly hp q hiq hqj
  rcases Nat.lt_or_ge k q with hlt | hge
  · -- inside a longer character the byte would continue it
    have hcont := decodeAt_char_tail (charAt?_eq_some_iff.1 hc).2 (k := q - k) (by omega) (by omega)
    rw [Nat.add_sub_cancel' (Nat.le_of_lt hlt), hq] at hcont
    simp [isCont] at hcont
    omega
  · obtain rfl : k = q := Nat.le_antisymm hkq hge
    have hk : k < v.size := (charAt?_eq_some_iff.1 hc).1
    rw [charAt?_of_lt hk (by rw [hq]; exact hx), hq, Char.ofNat_toNat] at hc
    cases hc
    exact hne rfl

end Pattern

@[simp] theorem maskByte_toNat : maskByte.toNat = 0x1a := rfl

namespace Overlay

open Utf8

variable {t : Overlay} {f : UInt8}

/-! ### Widening around ASCII bytes -/

theorem le_boundaryBelow {bs : ByteArray} {b : Nat} (hb : isBoundary bs b = true) :
    ∀ {m : Nat}, b ≤ m → b ≤ boundaryBelow bs m
  | 0, h => h
  | m + 1, h => by
    unfold boundaryBelow
    split
    · exact h
    · rename_i hnb
      rcases Nat.lt_or_ge b (m + 1) with hlt | hge
      · exact le_boundaryBelow hb (Nat.le_of_lt_succ hlt)
      · obtain rfl : b = m + 1 := Nat.le_antisymm h hge
        exact absurd hb hnb

theorem boundaryAbove_le {bs : ByteArray} {b m : Nat} (hb : isBoundary bs b = true) (hm : m ≤ b) :
    boundaryAbove bs m ≤ b := by
  fun_induction boundaryAbove bs m with
  | case1 => exact hm
  | case2 => exact hm
  | case3 m _ hnb ih =>
    have hne : m ≠ b := fun h => hnb (h ▸ hb)
    exact ih (by omega)

/-- An ASCII byte of a valid source outside a range stays outside it once widened: a
character of its own, it has boundaries on both sides. -/
theorem outside_widen_of_ascii (hv : Valid t.source) {q i j : Nat} (hq : q < t.size)
    (hb : byteAt t.source q < 0x80) (hij : i ≤ j) (hout : q < i ∨ j ≤ q) :
    q < (t.widen i j).1 ∨ (t.widen i j).2 ≤ q := by
  have hq₀ : isBoundary t.source q = true := isBoundary_of_lt hq hb
  obtain ⟨c, w, hd, hw⟩ := hv q hq hq₀
  rw [decodeAt_of_lt hb] at hd
  obtain ⟨-, rfl⟩ := Item.char.inj hd
  unfold size at hq
  unfold widen
  dsimp only
  rcases hout with hlt | hge
  · exact .inl (le_boundaryBelow hw (by omega))
  · exact .inr (boundaryAbove_le hq₀ (by omega))

/-- A printable ASCII byte in view inside the widened range of a range lies in the range
itself. -/
theorem mem_of_mem_widen (hf : t.Faithful) (hm : t.OnlyMasked) {q i j : Nat}
    (h₁ : 0x20 < byteAt t.view q) (h₂ : byteAt t.view q < 0x80) (hij : i ≤ j)
    (ha : (t.widen i j).1 ≤ q) (hb : q < (t.widen i j).2) : i ≤ q ∧ q < j := by
  have hsrc : byteAt t.source q = byteAt t.view q := by
    rcases hm q with e | e
    · exact e.symm
    · rw [e, maskByte_toNat] at h₁
      omega
  have hq : q < t.view.size := lt_size_of_byteAt_pos (by omega)
  rw [t.size_view] at hq
  by_contra hout
  rcases outside_widen_of_ascii hf.valid hq (by rw [hsrc]; exact h₂) hij (by omega) with h | h <;>
    omega

/-- A printable ASCII byte of the view shows. -/
theorem showsAt_of_printable {q : Nat} (h₁ : 0x20 < byteAt t.view q)
    (h₂ : byteAt t.view q < 0x80) : t.showsAt q = true := by
  have hq : q < t.view.size := lt_size_of_byteAt_pos (by omega)
  have hc : (Char.ofNat (byteAt t.view q)).toNat = byteAt t.view q :=
    toNat_ofNat_of_isValidChar (Or.inl (by omega))
  exact showsAt_iff.2 ⟨_, 1, charAt?_of_lt hq h₂, shows_of_ascii (by omega) (by omega)⟩

/-! ### A masking pass, fill by fill -/

/-- Fills the ranges one after another with one byte: a masking pass once its matches are
found. -/
def fillRanges (t : Overlay) (ranges : List (Nat × Nat)) (f : UInt8) : Overlay :=
  ranges.foldl (fun t r => t.fill r.1 r.2 f) t

@[simp] theorem fillRanges_nil (t : Overlay) (f : UInt8) : t.fillRanges [] f = t := rfl

@[simp] theorem fillRanges_cons (t : Overlay) (r : Nat × Nat) (rs : List (Nat × Nat)) (f : UInt8) :
    t.fillRanges (r :: rs) f = (t.fill r.1 r.2 f).fillRanges rs f := rfl

/-- The ranges a pass fills: its nonempty matches. -/
theorem maskAllWithByte_fst (t : Overlay) (prog : Program) (f : UInt8) :
    (t.maskAllWithByte prog f).1 = t.fillRanges ((t.findAll prog).filterMap fun m =>
      if m.start < m.stop then some (m.start, m.stop) else none) f := rfl

theorem mem_ranges {prog : Program} {r : Nat × Nat}
    (hr : r ∈ (t.findAll prog).filterMap fun m =>
      if m.start < m.stop then some (m.start, m.stop) else none) :
    ∃ m ∈ t.findAll prog, m.start < m.stop ∧ r = (m.start, m.stop) := by
  obtain ⟨m, hm, hr⟩ := List.mem_filterMap.1 hr
  split at hr
  · cases hr
    exact ⟨m, hm, ‹_›, rfl⟩
  · cases hr

theorem byteAt_fillRanges (ranges : List (Nat × Nat)) (t : Overlay) (f : UInt8) (q : Nat) :
    byteAt (t.fillRanges ranges f).view q = byteAt t.view q ∨
      byteAt (t.fillRanges ranges f).view q = f.toNat := by
  induction ranges generalizing t with
  | nil => exact .inl rfl
  | cons r rs ih =>
    rcases ih (t.fill r.1 r.2 f) with h | h
    · rcases byteAt_view_fill t r.1 r.2 f q with h' | h'
      · exact .inl (h.trans h')
      · exact .inr (h.trans h')
    · exact .inr h

/-- A byte that a fill changes lies in its widened range. -/
theorem Faithful.mem_widen_of_fill (ht : t.Faithful) {start stop q : Nat}
    (hq : byteAt (t.fill start stop f).view q ≠ byteAt t.view q) :
    (t.widen start stop).1 ≤ q ∧ q < (t.widen start stop).2 := by
  obtain ⟨-, -, ha, hb⟩ := widen_spec t start stop
  have hout :=
    (view_fill_spec t ht.valid_view f (ht.isBoundary_view ha) (ht.isBoundary_view hb)).1 q
  by_contra hin
  exact hq (hout (by omega))

/-- A byte that a run of fills changes lies in the widened range of one of them. -/
theorem Faithful.mem_widen_of_fillRanges (hf : f.toNat < 0x80) {ranges : List (Nat × Nat)} :
    ∀ {t : Overlay}, t.Faithful → ∀ {q : Nat},
      byteAt (t.fillRanges ranges f).view q ≠ byteAt t.view q →
      ∃ r ∈ ranges, (t.widen r.1 r.2).1 ≤ q ∧ q < (t.widen r.1 r.2).2 := by
  induction ranges with
  | nil => exact fun _ _ hq => absurd rfl hq
  | cons r rs ih =>
    intro t ht q hq
    by_cases hr : byteAt (t.fill r.1 r.2 f).view q = byteAt t.view q
    · -- the first fill kept the byte, so a later one changed it
      rw [fillRanges_cons, ← hr] at hq
      obtain ⟨r', hr', hin⟩ := ih (ht.fill hf r.1 r.2) hq
      exact ⟨r', .tail _ hr', hin⟩
    · exact ⟨r, .head _, ht.mem_widen_of_fill hr⟩

theorem showsAt_fillRanges_false (hf : Hides f) (ranges : List (Nat × Nat)) :
    ∀ {t : Overlay} {q : Nat}, t.showsAt q = false → (t.fillRanges ranges f).showsAt q = false := by
  induction ranges with
  | nil => exact fun hq => hq
  | cons r rs ih =>
    intro t q hq
    refine ih (Bool.eq_false_iff.2 fun h => ?_)
    rw [showsAt_of_fill hf h] at hq
    cases hq

/-- A run of fills that hide hides every offset that showed in the widened range of one of
them. -/
theorem showsAt_fillRanges_of_mem (hf : Hides f) {ranges : List (Nat × Nat)} {r : Nat × Nat}
    (hr : r ∈ ranges) : ∀ {t : Overlay} {q : Nat}, t.showsAt q = true →
      (t.widen r.1 r.2).1 ≤ q → q < (t.widen r.1 r.2).2 →
      (t.fillRanges ranges f).showsAt q = false := by
  induction ranges with
  | nil => cases hr
  | cons r₀ rs ih =>
    intro t q hq ha hb
    rw [fillRanges_cons]
    rcases List.mem_cons.1 hr with rfl | hr
    · exact showsAt_fillRanges_false hf rs (showsAt_fill_of_mem hf hq ha hb)
    · cases h : (t.fill r₀.1 r₀.2 f).showsAt q with
      | false => exact showsAt_fillRanges_false hf rs h
      | true => exact ih hr h ha hb

/-- What a masking pass does, byte by byte: a byte is kept or masked; one that changes lies
in the widened range of a nonempty match; and an offset that showed in such a range shows
no longer. -/
theorem byteAt_maskAll (t : Overlay) (prog : Program) (q : Nat) :
    byteAt (t.maskAll prog).1.view q = byteAt t.view q ∨
      byteAt (t.maskAll prog).1.view q = maskByte.toNat :=
  byteAt_fillRanges _ t maskByte q

theorem Faithful.mem_widen_of_maskAll (ht : t.Faithful) {prog : Program} {q : Nat}
    (hq : byteAt (t.maskAll prog).1.view q ≠ byteAt t.view q) :
    ∃ m ∈ t.findAll prog, m.start < m.stop ∧
      (t.widen m.start m.stop).1 ≤ q ∧ q < (t.widen m.start m.stop).2 := by
  obtain ⟨r, hr, hin⟩ := ht.mem_widen_of_fillRanges (by decide) hq
  obtain ⟨m, hm, hlt, rfl⟩ := mem_ranges hr
  exact ⟨m, hm, hlt, hin⟩

theorem showsAt_maskAll_of_mem {prog : Program} {m : Match} (hm : m ∈ t.findAll prog)
    (hlt : m.start < m.stop) {q : Nat} (hq : t.showsAt q = true)
    (ha : (t.widen m.start m.stop).1 ≤ q) (hb : q < (t.widen m.start m.stop).2) :
    (t.maskAll prog).1.showsAt q = false := by
  have hr : (m.start, m.stop) ∈ (t.findAll prog).filterMap fun m =>
      if m.start < m.stop then some (m.start, m.stop) else none :=
    List.mem_filterMap.2 ⟨m, hm, by rw [if_pos hlt]⟩
  exact showsAt_fillRanges_of_mem (.inl rfl) hr hq ha hb

/-- A printable byte in view that a masking pass changes lies in one of its nonempty
matches. -/
theorem masked_in_match (hf : t.Faithful) (hm : t.OnlyMasked) {p : Pattern} {q : Nat}
    (h₁ : 0x20 < byteAt t.view q) (h₂ : byteAt t.view q < 0x80)
    (hq : byteAt (t.maskAll p.compile).1.view q ≠ byteAt t.view q) :
    ∃ m ∈ t.findAll p.compile, m.start < m.stop ∧ Pattern.Matches t.view p m.start m.stop ∧
      m.start ≤ q ∧ q < m.stop := by
  obtain ⟨m, hm', hlt, ha, hb⟩ := hf.mem_widen_of_maskAll hq
  obtain ⟨hs, hq'⟩ := mem_of_mem_widen hf hm h₁ h₂ (Nat.le_of_lt hlt) ha hb
  exact ⟨m, hm', hlt, Program.mem_findAll_matches hm', hs, hq'⟩

end Overlay

namespace Python

open Utf8

/-! ### Brackets -/

/-- The closing bracket of an opening one: `(`, `[` and `{` close with `)`, `]` and `}`. -/
def closerOf : Nat → Option Nat
  | 40 => some 41
  | 91 => some 93
  | 123 => some 125
  | _ => none

/-- Whether a byte is a closing bracket. -/
def isCloser (b : Nat) : Bool := b == 41 || b == 93 || b == 125

/-- Reading the byte at offset `k` with the brackets `s` open, innermost first: an opening
bracket is pushed, a closing one pops the innermost open bracket, which must be of its kind. -/
def bracketStep (v : ByteArray) (k : Nat) (s : List Nat) : Option (List Nat) :=
  if (closerOf (byteAt v k)).isSome then some (k :: s)
  else if isCloser (byteAt v k) then
    match s with
    | p :: rest => if closerOf (byteAt v p) = some (byteAt v k) then some rest else none
    | [] => none
  else some s

/-- The brackets still open before offset `k`, innermost first, by their offsets; none once
a closing bracket closes no bracket of its kind. -/
def openBefore (v : ByteArray) : Nat → Option (List Nat)
  | 0 => some []
  | k + 1 => (openBefore v k).bind (bracketStep v k)

/-- The brackets of a text pair up: each closing bracket closes the innermost open one, of
its kind, and none is left open at the end. -/
def Balanced (v : ByteArray) : Prop := openBefore v v.size = some []

/-- No bracket is open before offset `k`. -/
def TopLevel (v : ByteArray) (k : Nat) : Prop := openBefore v k = some []

instance (v : ByteArray) : Decidable (Balanced v) :=
  inferInstanceAs (Decidable (openBefore v v.size = some []))

instance (v : ByteArray) (k : Nat) : Decidable (TopLevel v k) :=
  inferInstanceAs (Decidable (openBefore v k = some []))

theorem closerOf_eq_some {b c : Nat} :
    closerOf b = some c ↔ (b = 40 ∧ c = 41) ∨ (b = 91 ∧ c = 93) ∨ (b = 123 ∧ c = 125) := by
  unfold closerOf
  split <;> simp_all <;> omega

/-- An opening bracket is told by its closing one. -/
theorem closerOf_inj {a b c : Nat} (ha : closerOf a = some c) (hb : closerOf b = some c) :
    a = b := by
  rw [closerOf_eq_some] at ha hb
  omega

theorem bracketStep_cases {v : ByteArray} {k : Nat} {s s' : List Nat}
    (h : bracketStep v k s = some s') :
    ((closerOf (byteAt v k)).isSome ∧ s' = k :: s) ∨
      (isCloser (byteAt v k) = true ∧
        ∃ p, s = p :: s' ∧ closerOf (byteAt v p) = some (byteAt v k)) ∨
      ((closerOf (byteAt v k)).isSome = false ∧ isCloser (byteAt v k) = false ∧ s' = s) := by
  unfold bracketStep at h
  split at h
  · cases h
    exact .inl ⟨‹_›, rfl⟩
  · split at h
    · rename_i hcl
      split at h
      · rename_i p rest
        split at h
        · cases h
          exact .inr (.inl ⟨hcl, p, rfl, ‹_›⟩)
        · cases h
      · cases h
    · rename_i hno hncl
      cases h
      exact .inr (.inr ⟨Bool.eq_false_iff.2 hno, Bool.eq_false_iff.2 hncl, rfl⟩)

/-- Once a closing bracket closes nothing of its kind, no stack is read any longer. -/
theorem openBefore_none {v : ByteArray} {k : Nat} (h : openBefore v k = none) :
    ∀ n, openBefore v (k + n) = none
  | 0 => h
  | n + 1 => by rw [← Nat.add_assoc, openBefore, openBefore_none h n, Option.bind_none]

/-- In a text whose brackets pair up, a stack is read before every offset. -/
theorem Balanced.openBefore_isSome {v : ByteArray} (hb : Balanced v) {k : Nat} (hk : k ≤ v.size) :
    ∃ s, openBefore v k = some s := by
  cases h : openBefore v k with
  | none =>
    have := openBefore_none h (v.size - k)
    rw [Nat.add_sub_cancel' hk] at this
    rw [Balanced, this] at hb
    cases hb
  | some s => exact ⟨s, rfl⟩

/-- The open brackets lie before the offset, later ones above earlier ones, and each is an
opening bracket. -/
theorem openBefore_sorted {v : ByteArray} :
    ∀ {k : Nat} {s : List Nat}, openBefore v k = some s →
      s.Pairwise (· > ·) ∧ ∀ p ∈ s, p < k ∧ (closerOf (byteAt v p)).isSome = true
  | 0, s, h => by
    cases h
    exact ⟨List.Pairwise.nil, fun p hp => absurd hp List.not_mem_nil⟩
  | k + 1, s', h => by
    obtain ⟨s, hs, hstep⟩ := Option.bind_eq_some_iff.1 h
    obtain ⟨hsorted, hbelow⟩ := openBefore_sorted hs
    rcases bracketStep_cases hstep with ⟨hopen, rfl⟩ | ⟨-, p, rfl, -⟩ | ⟨-, -, rfl⟩
    · -- the bracket pushed lies above all open ones
      refine ⟨List.pairwise_cons.2 ⟨fun p hp => (hbelow p hp).1, hsorted⟩, fun p hp => ?_⟩
      rcases List.mem_cons.1 hp with rfl | hp
      · exact ⟨Nat.lt_succ_self _, hopen⟩
      · exact ⟨Nat.lt_succ_of_lt (hbelow p hp).1, (hbelow p hp).2⟩
    · exact ⟨(List.pairwise_cons.1 hsorted).2, fun q hq =>
        ⟨Nat.lt_succ_of_lt (hbelow q (.tail _ hq)).1, (hbelow q (.tail _ hq)).2⟩⟩
    · exact ⟨hsorted, fun q hq => ⟨Nat.lt_succ_of_lt (hbelow q hq).1, (hbelow q hq).2⟩⟩

/-- A bracket open at a later offset was open at an earlier one, or opened in between. -/
theorem openBefore_history {v : ByteArray} {k : Nat} {s : List Nat} (hk : openBefore v k = some s) :
    ∀ n {s' : List Nat}, openBefore v (k + n) = some s' → ∀ p ∈ s', p ∈ s ∨ k ≤ p
  | 0, s', h => by
    rw [Nat.add_zero, hk] at h
    cases h
    exact fun p hp => .inl hp
  | n + 1, s'', h => by
    rw [← Nat.add_assoc] at h
    obtain ⟨s', hs', hstep⟩ := Option.bind_eq_some_iff.1 h
    have ih := openBefore_history hk n hs'
    intro p hp
    rcases bracketStep_cases hstep with ⟨-, rfl⟩ | ⟨-, q, rfl, -⟩ | ⟨-, -, rfl⟩
    · rcases List.mem_cons.1 hp with rfl | hp
      · exact .inr (Nat.le_add_right _ _)
      · exact ih p hp
    · exact ih p (.tail _ hp)
    · exact ih p hp

/-- A bracket open at an offset stays open at every offset between its own and that one. -/
theorem openBefore_persist {v : ByteArray} {a b : Nat} {sa sb : List Nat}
    (ha : openBefore v a = some sa) (hb : openBefore v b = some sb) (hab : a ≤ b) {p : Nat}
    (hp : p ∈ sb) (hpa : p < a) : p ∈ sa := by
  rw [← Nat.add_sub_cancel' hab] at hb
  rcases openBefore_history ha (b - a) hb p hp with h | h
  · exact h
  · omega

/-- In a text whose brackets pair up, a closing bracket closes the innermost open bracket,
which is of its kind, and pops it. -/
theorem Balanced.openBefore_closer {v : ByteArray} (hb : Balanced v) {c : Nat} (hc : c < v.size)
    (hcl : isCloser (byteAt v c) = true) :
    ∃ p rest, openBefore v c = some (p :: rest) ∧ closerOf (byteAt v p) = some (byteAt v c) ∧
      openBefore v (c + 1) = some rest := by
  obtain ⟨s', hs'⟩ := hb.openBefore_isSome (Nat.succ_le_of_lt hc)
  obtain ⟨s, hs, hstep⟩ := Option.bind_eq_some_iff.1 hs'
  rcases bracketStep_cases hstep with ⟨hopen, -⟩ | ⟨-, p, rfl, hp⟩ | ⟨-, hncl, -⟩
  · -- no byte both opens and closes
    obtain ⟨o, ho⟩ := Option.isSome_iff_exists.1 hopen
    rw [closerOf_eq_some] at ho
    simp only [isCloser, Bool.or_eq_true, beq_iff_eq] at hcl
    omega
  · exact ⟨p, s', hs, hp, hs'⟩
  · rw [hcl] at hncl
    cases hncl

/-! ### What the censoring pattern reads -/

/-- The text holds `lambda` nowhere, not even inside a word. -/
def NoLambda (v : ByteArray) : Prop :=
  ∀ q < v.size, ¬ (byteAt v q = 108 ∧ byteAt v (q + 1) = 97 ∧ byteAt v (q + 2) = 109 ∧
    byteAt v (q + 3) = 98 ∧ byteAt v (q + 4) = 100 ∧ byteAt v (q + 5) = 97)

instance (v : ByteArray) : Decidable (NoLambda v) := inferInstanceAs (Decidable (∀ q < v.size, _))

/-- A bracketed part of the censoring pattern opens with its bracket, closes with the closing
one, and holds no opening bracket of its kind in between. -/
theorem bracketed_match {v : ByteArray} {o c : Char} {s : CharSet} (ho : o.toNat < 0x80)
    (hc : c.toNat < 0x80) (hs : s.Sub (· ≠ o)) {i j : Nat}
    (h : Pattern.Matches v (.seq (.seq (.chars (CharSet.range o o)) (.star (.chars s) true))
      (.chars (CharSet.range c c))) i j) :
    byteAt v i = o.toNat ∧ i + 2 ≤ j ∧ byteAt v (j - 1) = c.toNat ∧
      ∀ q, i < q → q < j - 1 → byteAt v q ≠ o.toNat := by
  cases h with
  | seq h₁ h₃ =>
    cases h₁ with
    | seq h₀ h₂ =>
      obtain ⟨hi, rfl⟩ := h₀.ascii ho
      obtain ⟨hk, rfl⟩ := h₃.ascii hc
      refine ⟨hi, by have := h₂.le; omega, by simpa using hk, fun q hiq hqj => ?_⟩
      exact h₂.byteAt_ne hs ho q hiq (by simpa using hqj)

/-- The lambda branch of the censoring pattern reads `lambda` where it starts. -/
theorem lambda_bytes {v : ByteArray} {i j : Nat} {rest : Pattern}
    (h : Pattern.Matches v (.seq (.seq (.seq (.seq .wordBoundary
      (.seq (.chars (CharSet.range 'l' 'l')) (.seq (.chars (CharSet.range 'a' 'a'))
      (.seq (.chars (CharSet.range 'm' 'm')) (.seq (.chars (CharSet.range 'b' 'b'))
      (.seq (.chars (CharSet.range 'd' 'd')) (.chars (CharSet.range 'a' 'a')))))))) .wordBoundary)
      rest) (.chars (CharSet.range ':' ':'))) i j) :
    byteAt v i = 108 ∧ byteAt v (i + 1) = 97 ∧ byteAt v (i + 2) = 109 ∧
      byteAt v (i + 3) = 98 ∧ byteAt v (i + 4) = 100 ∧ byteAt v (i + 5) = 97 := by
  cases h with | seq h _ =>
  cases h with | seq h _ =>
  cases h with | seq h _ =>
  cases h with | seq hwb h =>
  cases hwb
  cases h with | seq h₀ h =>
  obtain ⟨b₀, rfl⟩ := h₀.ascii (by decide)
  cases h with | seq h₁ h =>
  obtain ⟨b₁, rfl⟩ := h₁.ascii (by decide)
  cases h with | seq h₂ h =>
  obtain ⟨b₂, rfl⟩ := h₂.ascii (by decide)
  cases h with | seq h₃ h =>
  obtain ⟨b₃, rfl⟩ := h₃.ascii (by decide)
  cases h with | seq h₄ h₅ =>
  obtain ⟨b₄, rfl⟩ := h₄.ascii (by decide)
  obtain ⟨b₅, -⟩ := h₅.ascii (by decide)
  exact ⟨b₀, b₁, b₂, b₃, b₄, b₅⟩

/-- What a match of the censoring pattern reads where no `lambda` is written: an opening
bracket, then no opening bracket of its kind, then the bracket that closes its kind. -/
theorem censor_match {v : ByteArray} {i j : Nat} (h : Pattern.Matches v paramCensor i j)
    (hl : NoLambda v) :
    ∃ o c, closerOf o = some c ∧ byteAt v i = o ∧ i + 2 ≤ j ∧ byteAt v (j - 1) = c ∧
      ∀ q, i < q → q < j - 1 → byteAt v q ≠ o := by
  change Pattern.Matches v (.alt _ (.alt _ (.alt _ (.seq (.seq (.seq (.seq .wordBoundary
    (.seq (.chars (CharSet.range 'l' 'l')) (.seq (.chars (CharSet.range 'a' 'a'))
    (.seq (.chars (CharSet.range 'm' 'm')) (.seq (.chars (CharSet.range 'b' 'b'))
    (.seq (.chars (CharSet.range 'd' 'd')) (.chars (CharSet.range 'a' 'a')))))))) .wordBoundary)
    (.star (.chars (CharSet.ofString ":").complement) true)) (.chars (CharSet.range ':' ':'))))))
    i j at h
  cases h with
  | altLeft h =>
    exact ⟨123, 125, rfl, bracketed_match (show ('\x7b' : Char).toNat < 0x80 by decide)
      (show ('\x7d' : Char).toNat < 0x80 by decide)
      (CharSet.sub_ne_of_ranges (by cbv) (by decide)) h⟩
  | altRight h =>
    cases h with
    | altLeft h =>
      exact ⟨40, 41, rfl, bracketed_match (show ('(' : Char).toNat < 0x80 by decide)
        (show (')' : Char).toNat < 0x80 by decide)
        (CharSet.sub_ne_of_ranges (by cbv) (by decide)) h⟩
    | altRight h =>
      cases h with
      | altLeft h =>
        exact ⟨91, 93, rfl, bracketed_match (show ('[' : Char).toNat < 0x80 by decide)
          (show (']' : Char).toNat < 0x80 by decide)
          (CharSet.sub_ne_of_ranges (by cbv) (by decide)) h⟩
      | altRight h =>
        -- a lambda would be written at the start of the match
        exfalso
        obtain ⟨hl₀, ha₁, hm, hb, hd, ha₅⟩ := lambda_bytes h
        exact hl i (lt_size_of_byteAt_pos (by omega)) ⟨hl₀, ha₁, hm, hb, hd, ha₅⟩

/-! ### The invariant of the censoring passes -/

/-- What the censoring passes keep of a parameter list whose view was `v` before them. -/
structure Censored (v : ByteArray) (t : Overlay) : Prop where
  faithful : t.Faithful
  onlyMasked : t.OnlyMasked
  /-- Every byte is the one `v` had, or masked. -/
  kept : ∀ q, byteAt t.view q = byteAt v q ∨ byteAt t.view q = maskByte.toNat
  /-- A closing bracket still in view has its opening bracket in view. -/
  closers : ∀ c p rest, openBefore v c = some (p :: rest) → isCloser (byteAt v c) = true →
    byteAt t.view c = byteAt v c → byteAt t.view p = byteAt v p
  /-- No comma at the top level of `v` is masked. -/
  commas : ∀ k, TopLevel v k → byteAt v k = ','.toNat → byteAt t.view k = ','.toNat

variable {v : ByteArray} {t : Overlay}

theorem censored_start (hf : t.Faithful) (hm : t.OnlyMasked) : Censored t.view t where
  faithful := hf
  onlyMasked := hm
  kept _ := .inl rfl
  closers _ _ _ _ _ _ := rfl
  commas _ _ hk := hk

/-- A byte in view other than the mask byte is the one `v` had. -/
theorem Censored.same (h : Censored v t) {q b : Nat} (hq : byteAt t.view q = b)
    (hb : b ≠ maskByte.toNat) : byteAt v q = b := by
  rcases h.kept q with e | e
  · rw [← e, hq]
  · exact absurd (e.symm.trans hq).symm hb

theorem Censored.noLambda (h : Censored v t) (hl : NoLambda v) : NoLambda t.view := by
  rintro q - ⟨h₀, h₁, h₂, h₃, h₄, h₅⟩
  have hq : byteAt v q = 108 := h.same h₀ (by decide)
  exact hl q (lt_size_of_byteAt_pos (by omega)) ⟨hq, h.same h₁ (by decide), h.same h₂ (by decide),
    h.same h₃ (by decide), h.same h₄ (by decide), h.same h₅ (by decide)⟩

/-- An opening bracket is a printable ASCII byte. -/
theorem printable_of_closerOf {o : Nat} (h : (closerOf o).isSome = true) : 0x20 < o ∧ o < 0x80 := by
  obtain ⟨c, hc⟩ := Option.isSome_iff_exists.1 h
  rw [closerOf_eq_some] at hc
  omega

/-- The bracket that closes a censored part was opened at the part's start or before it: an
opening bracket of its kind after the start would be in view inside the part. -/
theorem Censored.opener_le_start (h : Censored v t) (hb : Balanced v) (hl : NoLambda v)
    {i j : Nat} (hm : Pattern.Matches t.view paramCensor i j) :
    j ≤ t.size ∧ ∃ p₀ rest, openBefore v (j - 1) = some (p₀ :: rest) ∧
      openBefore v j = some rest ∧ p₀ ≤ i := by
  obtain ⟨o, c, hoc, hi, hij, hc, hnone⟩ := censor_match hm (h.noLambda hl)
  have hc₁ : 0x20 < c ∧ c < 0x80 ∧ isCloser c = true := by
    rcases closerOf_eq_some.1 hoc with ⟨-, rfl⟩ | ⟨-, rfl⟩ | ⟨-, rfl⟩ <;> decide
  -- the part's closing bracket is the one `v` had, which closes some bracket `p₀`
  have hcv : byteAt v (j - 1) = c := h.same hc (by rw [maskByte_toNat]; omega)
  have hjv : j - 1 < v.size := lt_size_of_byteAt_pos (by omega)
  obtain ⟨p₀, rest, hp₀, hkind, hpop⟩ := hb.openBefore_closer hjv (by rw [hcv]; exact hc₁.2.2)
  -- `p₀` is in view with the part's opening bracket
  have hp₀t : byteAt t.view p₀ = byteAt v p₀ :=
    h.closers _ _ _ hp₀ (by rw [hcv]; exact hc₁.2.2) (by rw [hc, hcv])
  have hp₀o : byteAt v p₀ = o := closerOf_inj (by rw [hkind, hcv]) hoc
  have hp₀j : p₀ < j - 1 := ((openBefore_sorted hp₀).2 p₀ (.head _)).1
  have hjt : j - 1 < t.view.size := lt_size_of_byteAt_pos (by omega)
  rw [t.size_view] at hjt
  refine ⟨by unfold Overlay.size; omega, p₀, rest, hp₀,
    by rwa [show j - 1 + 1 = j by omega] at hpop, ?_⟩
  by_contra hgt
  exact hnone p₀ (by omega) hp₀j (hp₀t.trans hp₀o)

theorem Censored.kept_maskAll (h : Censored v t) (q : Nat) :
    byteAt (t.maskAll censorProgram).1.view q = byteAt v q ∨
      byteAt (t.maskAll censorProgram).1.view q = maskByte.toNat := by
  rcases Overlay.byteAt_maskAll t censorProgram q with e | e
  · rw [e]
    exact h.kept q
  · exact .inr e

/-- A pass masks no comma at the top level: the bracket closing a part that held one would
be open at the comma, or opened after it. -/
theorem Censored.commas_maskAll (h : Censored v t) (hb : Balanced v) (hl : NoLambda v) {k : Nat}
    (hk : TopLevel v k) (hkc : byteAt v k = ','.toNat) :
    byteAt (t.maskAll censorProgram).1.view k = ','.toNat := by
  have hkt : byteAt t.view k = ','.toNat := h.commas k hk hkc
  by_contra hne
  -- a masked comma lies in a censored part
  obtain ⟨m, -, -, hmatch, hik, hkj⟩ := Overlay.masked_in_match h.faithful h.onlyMasked
    (by rw [hkt]; decide) (by rw [hkt]; decide) (by rw [hkt]; exact hne)
  obtain ⟨-, p₀, rest, hp₀, -, hle⟩ := h.opener_le_start hb hl hmatch
  -- the bracket `p₀` is open at the part's end but not at the comma
  have hafter : k ≤ p₀ := by
    have hend : openBefore v (k + (m.stop - 1 - k)) = some (p₀ :: rest) := by
      rwa [show k + (m.stop - 1 - k) = m.stop - 1 by omega]
    rcases openBefore_history hk _ hend p₀ (.head _) with hmem | hle'
    · cases hmem
    · exact hle'
  obtain rfl : p₀ = k := by omega
  have hopen := ((openBefore_sorted hp₀).2 p₀ (.head _)).2
  rw [hkc] at hopen
  cases hopen

/-- A pass keeps every closing bracket in view with its opening bracket: a part that masks
the opening one but not its closing one ends before the closing one, so the bracket closing
the part would have closed the opening one too. -/
theorem Censored.closers_maskAll (h : Censored v t) (hb : Balanced v) (hl : NoLambda v)
    {c p : Nat} {rest : List Nat} (hc : openBefore v c = some (p :: rest))
    (hcl : isCloser (byteAt v c) = true)
    (hu : byteAt (t.maskAll censorProgram).1.view c = byteAt v c) :
    byteAt (t.maskAll censorProgram).1.view p = byteAt v p := by
  have hcp : 0x20 < byteAt v c ∧ byteAt v c < 0x80 := by
    simp only [isCloser, Bool.or_eq_true, beq_iff_eq] at hcl
    omega
  have hpp := printable_of_closerOf ((openBefore_sorted hc).2 p (.head _)).2
  have hpc : p < c := ((openBefore_sorted hc).2 p (.head _)).1
  -- before the pass the closing bracket was in view, and so was its opening one
  have hct : byteAt t.view c = byteAt v c := by
    rcases Overlay.byteAt_maskAll t censorProgram c with e | e
    · rw [← e, hu]
    · rw [hu, maskByte_toNat] at e
      omega
  have hpt : byteAt t.view p = byteAt v p := h.closers c p rest hc hcl hct
  by_contra hne
  -- the opening bracket was masked in a censored part
  obtain ⟨m, hm, hlt, hmatch, hip, hpj⟩ := Overlay.masked_in_match h.faithful h.onlyMasked
    (by rw [hpt]; omega) (by rw [hpt]; omega) (by rw [hpt]; exact hne)
  obtain ⟨hjs, p₀, rest₀, hp₀, hpop, hle⟩ := h.opener_le_start hb hl hmatch
  -- the closing bracket lies past the part, which would have masked it
  have hjc : m.stop ≤ c := by
    by_contra hcj
    have hcm : c < m.stop := Nat.lt_of_not_le hcj
    obtain ⟨ha, hb⟩ := Overlay.mem_widen (Nat.le_of_lt (Nat.lt_of_le_of_lt hip hpc)) hcm
      (Nat.lt_of_lt_of_le hcm hjs)
    have hgone : (t.maskAll censorProgram).1.showsAt c = false :=
      Overlay.showsAt_maskAll_of_mem hm hlt
        (Overlay.showsAt_of_printable (by rw [hct]; omega) (by rw [hct]; omega)) ha hb
    rw [Overlay.showsAt_of_printable (by rw [hu]; omega) (by rw [hu]; omega)] at hgone
    cases hgone
  -- so `p` was still open after the part's closing bracket, below the bracket it closed
  have hprest : p ∈ rest₀ := openBefore_persist hpop hc hjc (.head _) (by omega)
  have hgt : p₀ > p := (List.pairwise_cons.1 (openBefore_sorted hp₀).1).1 p hprest
  omega

/-- A masking pass keeps the invariant. -/
theorem Censored.pass (h : Censored v t) (hb : Balanced v) (hl : NoLambda v) :
    Censored v (t.maskAll censorProgram).1 where
  faithful := Overlay.maskAllWithByte_induction (fun _ a b ht => ht.fill (by decide) a b)
    censorProgram h.faithful
  onlyMasked := h.onlyMasked.maskAll censorProgram
  kept := h.kept_maskAll
  closers _ _ _ hc hcl hu := h.closers_maskAll hb hl hc hcl hu
  commas _ hk hkc := h.commas_maskAll hb hl hk hkc

/-- Censoring a parameter list whose brackets pair up and which holds no `lambda` masks none
of its commas at the top level. -/
theorem censoring_keeps_top_level_commas {t : Overlay} (hf : t.Faithful) (hm : t.OnlyMasked)
    (hb : Balanced t.view) (hl : NoLambda t.view) {k : Nat} (hk : TopLevel t.view k)
    (hkc : byteAt t.view k = ','.toNat) :
    byteAt (t.maskRepeatedly censorProgram).view k = ','.toNat := by
  -- every pass keeps the invariant, read against the view before the first one
  have hc : Censored t.view (t.maskRepeatedly censorProgram) :=
    Overlay.maskRepeatedly_induction_pass (P := Censored t.view) (fun _ h => h.pass hb hl)
      (censored_start hf hm)
  exact hc.commas k hk hkc

/-- In `self, x: Dict[str, int] = None, y=1` the comma after `self` survives censoring. -/
theorem self_comma_survives_censoring :
    byteAt ((Overlay.ofString "self, x: Dict[str, int] = None, y=1").maskRepeatedly
      censorProgram).view 4 = ','.toNat :=
  censoring_keeps_top_level_commas (Overlay.faithful_ofString _) (Overlay.onlyMasked_ofString _)
    (by decide) (by decide) (by decide) (by decide)

end Python

end Lineage
