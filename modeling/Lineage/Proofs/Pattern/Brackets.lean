import Mathlib
import Lineage.Proofs.Pattern.Reads
import Lineage.Proofs.Text.Wellformed
import Lineage.Scan.Shapes
/-!
Bracketed expressions.

A bracketed expression in `o` and `c` is `o`, then a run of characters balanced in `o` and
`c`, then `c`. How deep its brackets may nest is bounded: a pattern cannot count, so the
expression is written out level by level, `o (other | o (other | …)* c)* c`, with `other` any
character but the two brackets (`Brackets.unrolled`). The scanners read it as one step of a
pattern instead (`Scan.bracket`, a `balanced` step), which counts the brackets as it goes.

Both read the same texts, and they are the balanced ones (`Brackets.Nested`): reading the run
between the outer brackets from no open bracket never closes a bracket that is not open, never
has more than the bound open, and ends with none open (`Brackets.depthAfter`).

* The written-out pattern: a run of other characters and bracketed expressions one level
  shallower is balanced (`Brackets.matches_inside`); conversely a balanced run is read
  character by character, keeping a stack of the expressions still open, each as far as it
  has been read (`Brackets.Stack`), and when the run ends the stack is empty
  (`Brackets.inside_of_nested`).
* The counting step: it reads the opening bracket, then counts until the bracket that closes
  it (`Brackets.matches_balanced_iff`).
* `bracket_reads_nested`: for round and angle brackets, a text is read whole by the
  written-out pattern at the scanners' depth, and by the scanners' step, exactly when it is
  `o`, a run balanced with at most `bracketDepth` brackets open at once, and `c`.
-/
namespace Lineage

namespace Utf8

/-- The characters read one after another from offset `i` of the text, ending at `j`. -/
inductive Reads (text : ByteArray) : Nat → List Char → Nat → Prop
  | nil (i : Nat) : Reads text i [] i
  | cons {i w j : Nat} {x : Char} {l : List Char} : charAt? text i = some (x, w) →
      Reads text (i + w) l j → Reads text i (x :: l) j

variable {text : ByteArray} {i j : Nat} {l : List Char}

theorem Reads.le (h : Reads text i l j) : i + l.length ≤ j := by
  induction h with
  | nil => simp
  | cons hc _ ih =>
    have := charAt?_width_pos hc
    simp only [List.length_cons]
    omega

theorem reads_nil_iff : Reads text i [] j ↔ j = i := by
  constructor
  · intro h
    cases h
    rfl
  · rintro rfl
    exact .nil _

theorem reads_cons_iff {x : Char} :
    Reads text i (x :: l) j ↔ ∃ w, charAt? text i = some (x, w) ∧ Reads text (i + w) l j := by
  constructor
  · intro h
    cases h with
    | cons hc hr => exact ⟨_, hc, hr⟩
  · rintro ⟨w, hc, hr⟩
    exact .cons hc hr

theorem reads_append {l₁ l₂ : List Char} :
    Reads text i (l₁ ++ l₂) j ↔ ∃ k, Reads text i l₁ k ∧ Reads text k l₂ j := by
  induction l₁ generalizing i with
  | nil => simp [reads_nil_iff]
  | cons x l ih =>
    simp only [List.cons_append, reads_cons_iff, ih]
    constructor
    · rintro ⟨w, hc, k, h₁, h₂⟩
      exact ⟨k, ⟨w, hc, h₁⟩, h₂⟩
    · rintro ⟨k, ⟨w, hc, h₁⟩, h₂⟩
      exact ⟨w, hc, k, h₁, h₂⟩

/-- The characters read between two offsets are fixed by the offsets. -/
theorem Reads.unique {l' : List Char} (h₁ : Reads text i l j) (h₂ : Reads text i l' j) :
    l = l' := by
  induction h₁ generalizing l' with
  | nil i =>
    cases h₂ with
    | nil => rfl
    | cons hc hr =>
      have := hr.le
      have := charAt?_width_pos hc
      omega
  | cons hc hr ih =>
    cases h₂ with
    | nil =>
      have := hr.le
      have := charAt?_width_pos hc
      omega
    | cons hc' hr' =>
      rw [hc, Option.some_inj, Prod.mk.injEq] at hc'
      obtain ⟨rfl, rfl⟩ := hc'
      rw [ih hr']

/-- Characters read end inside the text. -/
theorem Reads.le_size (h : Reads text i l j) (hl : l ≠ []) : j ≤ text.size := by
  induction h with
  | nil => exact absurd rfl hl
  | @cons i w j x l hc hr ih =>
    cases l with
    | nil =>
      cases hr
      exact charAt?_end_le hc
    | cons => exact ih (List.cons_ne_nil _ _)

/-- Past a first part, a joined array reads what its second part reads. -/
theorem charAt?_append_right (A B : ByteArray) (i : Nat) :
    charAt? (A ++ B) (A.size + i) = charAt? B i := by
  have hdec : decodeAt (A ++ B) (A.size + i) = decodeAt B i := decodeAt_eq_of_bytes fun k _ => by
    rw [byteAt_append_right (by omega), show A.size + i + k - A.size = i + k by omega]
  unfold charAt?
  rw [hdec, ByteArray.size_append]
  by_cases hi : i < B.size
  · rw [if_pos (by omega), if_pos hi]
  · rw [if_neg (by omega), if_neg hi]

theorem Reads.append_left (A : ByteArray) {B : ByteArray} (h : Reads B i l j) :
    Reads (A ++ B) (A.size + i) l (A.size + j) := by
  induction h with
  | nil i => exact .nil _
  | cons hc _ ih =>
    refine .cons (by rw [charAt?_append_right]; exact hc) ?_
    rwa [Nat.add_assoc]

/-- The UTF-8 form of characters reads them back. -/
theorem reads_utf8Encode : ∀ l : List Char, Reads l.utf8Encode 0 l l.utf8Encode.size
  | [] => by
    rw [List.utf8Encode_nil]
    exact .nil 0
  | x :: l => by
    rw [List.utf8Encode_cons, List.utf8Encode_singleton]
    have hX : (String.utf8EncodeChar x).toByteArray.size = x.utf8Size := by
      simp only [List.size_toByteArray, String.length_utf8EncodeChar]
    have hpos := Char.utf8Size_pos x
    have hfirst : charAt? ((String.utf8EncodeChar x).toByteArray ++ l.utf8Encode) 0 =
        some (x, x.utf8Size) := by
      refine charAt?_eq_some_iff.2 ⟨by rw [ByteArray.size_append]; omega, ?_⟩
      exact decodeAt_congr (decodeAt_utf8EncodeChar x) fun k hk => byteAt_append_left (by omega)
    have hrest := (reads_utf8Encode l).append_left (String.utf8EncodeChar x).toByteArray
    rw [hX, Nat.add_zero] at hrest
    refine .cons hfirst ?_
    rwa [Nat.zero_add, ByteArray.size_append, hX]

/-- The bytes of a string read, from start to end, exactly its characters. -/
theorem reads_toUTF8_iff (w : String) (l : List Char) :
    Reads w.toUTF8 0 l w.utf8ByteSize ↔ l = w.toList := by
  have hw : Reads w.toUTF8 0 w.toList w.utf8ByteSize := by
    have h := reads_utf8Encode w.toList
    rwa [String.utf8Encode_toList, ← String.toUTF8_eq_toByteArray] at h
  exact ⟨fun h => h.unique hw, fun h => h ▸ hw⟩

end Utf8

namespace CharSet

/-- A set of one character holds that character. -/
theorem mem_range_self_iff (a x : Char) : (CharSet.range a a).mem x = true ↔ x = a := by
  have hranges : (CharSet.range a a).ranges = #[(a.toNat, a.toNat)] := by
    simp [CharSet.range, CharSet.ofRanges, CharSet.mergeSorted]
  have hasc : Ranges.Ascending (CharSet.range a a).ranges := by
    rw [hranges]
    simp [Ranges.Ascending]
  rw [CharSet.mem, Ranges.contains_iff hasc, hranges]
  simp only [List.mem_toArray, List.mem_singleton, exists_eq_left]
  rw [← Char.toNat_inj]
  omega

end CharSet

namespace Pattern

open Utf8

variable {text : ByteArray} {i j : Nat}

theorem matches_chars_iff {s : CharSet} :
    Matches text (chars s) i j ↔
      ∃ x w, charAt? text i = some (x, w) ∧ s.mem x = true ∧ j = i + w := by
  constructor
  · intro h
    cases h with
    | chars hc hs => exact ⟨_, _, hc, hs, rfl⟩
  · rintro ⟨x, w, hc, hs, rfl⟩
    exact .chars hc hs

theorem matches_range_iff {a : Char} :
    Matches text (chars (CharSet.range a a)) i j ↔
      ∃ w, charAt? text i = some (a, w) ∧ j = i + w := by
  rw [matches_chars_iff]
  constructor
  · rintro ⟨x, w, hc, hs, rfl⟩
    rw [(CharSet.mem_range_self_iff a x).1 hs] at hc
    exact ⟨w, hc, rfl⟩
  · rintro ⟨w, hc, rfl⟩
    exact ⟨a, w, hc, (CharSet.mem_range_self_iff a a).2 rfl, rfl⟩

/-- A repetition is read by reading its pattern, then the rest of the repetition, any number
of times. -/
theorem Matches.star_induction {p : Pattern} {g : Bool} {Q : Nat → Nat → Prop}
    (hnil : ∀ i, Q i i)
    (hcons : ∀ {i k j}, Matches text p i k → Matches text (star p g) k j → Q k j → Q i j)
    (h : Matches text (star p g) i j) : Q i j := by
  generalize hq : star p g = q at h
  induction h with
  | starNil => exact hnil _
  | starCons h₁ h₂ _ ih₂ =>
    cases hq
    exact hcons h₁ h₂ (ih₂ rfl)
  | _ => cases hq

/-- A repetition read up to some offset goes on with one more reading of its pattern. -/
theorem Matches.star_snoc {p : Pattern} {g : Bool} {k : Nat} (h : Matches text (star p g) i k)
    (hp : Matches text p k j) : Matches text (star p g) i j := by
  refine Matches.star_induction
    (Q := fun i k => ∀ j, Matches text p k j → Matches text (star p g) i j)
    (fun i j hp => .starCons hp (.starNil p g j)) (fun h₁ _ ih j hp => .starCons h₁ (ih j hp))
    h j hp

end Pattern

namespace Brackets

open Utf8 Pattern

variable {o c : Char}

/-- The number of brackets open after reading `u` with `k` open: `o` opens one more, which
may not make more than `d` open; `c` closes one, which must be open; any other character
leaves the number as it is. None where a bracket opens past `d` or closes with none open. -/
def depthAfter (o c : Char) (d : Nat) : Nat → List Char → Option Nat
  | k, [] => some k
  | k, x :: u =>
    if x = o then (if k < d then depthAfter o c d (k + 1) u else none)
    else if x = c then (if 0 < k then depthAfter o c d (k - 1) u else none)
    else depthAfter o c d k u

/-- A run balanced in `o` and `c`, with at most `d` brackets open at once: read from none open,
it never closes a bracket that is not open, never has more than `d` open, and ends with none
open. -/
def Nested (o c : Char) (d : Nat) (u : List Char) : Prop := depthAfter o c d 0 u = some 0

instance (o c : Char) (d : Nat) (u : List Char) : Decidable (Nested o c d u) :=
  inferInstanceAs (Decidable (_ = _))

/-- Sixteen brackets may be open inside the outer pair, and not seventeen. -/
example : Nested '<' '>' 16 ((List.replicate 16 '<') ++ List.replicate 16 '>') ∧
    ¬ Nested '<' '>' 16 ((List.replicate 17 '<') ++ List.replicate 17 '>') := by decide

theorem depthAfter_append (d k : Nat) (u v : List Char) :
    depthAfter o c d k (u ++ v) = (depthAfter o c d k u).bind fun k' => depthAfter o c d k' v := by
  induction u generalizing k with
  | nil => rfl
  | cons x u ih =>
    simp only [List.cons_append, depthAfter]
    split_ifs <;> simp [ih]

/-- Reading from one more open bracket, with room for one more, ends with one more open. -/
theorem depthAfter_succ {d k k' : Nat} {u : List Char} (h : depthAfter o c d k u = some k') :
    depthAfter o c (d + 1) (k + 1) u = some (k' + 1) := by
  induction u generalizing k with
  | nil =>
    simp only [depthAfter, Option.some_inj] at h ⊢
    omega
  | cons x u ih =>
    simp only [depthAfter] at h ⊢
    by_cases hxo : x = o
    · rw [if_pos hxo] at h ⊢
      by_cases hk : k < d
      · rw [if_pos hk] at h
        rw [if_pos (by omega)]
        exact ih h
      · rw [if_neg hk] at h
        cases h
    · rw [if_neg hxo] at h ⊢
      by_cases hxc : x = c
      · rw [if_pos hxc] at h ⊢
        by_cases hk : 0 < k
        · rw [if_pos hk] at h
          rw [if_pos (by omega), show k + 1 - 1 = k - 1 + 1 by omega]
          exact ih h
        · rw [if_neg hk] at h
          cases h
      · rw [if_neg hxc] at h ⊢
        exact ih h

theorem depthAfter_other {d k : Nat} {x : Char} (hxo : x ≠ o) (hxc : x ≠ c) :
    depthAfter o c d k [x] = some k := by
  simp [depthAfter, hxo, hxc]

/-- A bracketed run one level shallower, between its brackets, leaves the number open as it
was. -/
theorem depthAfter_wrap (hoc : o ≠ c) {d : Nat} {u : List Char} (h : Nested o c d u) :
    depthAfter o c (d + 1) 0 (o :: u ++ [c]) = some 0 := by
  rw [List.cons_append, depthAfter, if_pos rfl, if_pos (Nat.succ_pos d), depthAfter_append,
    depthAfter_succ h]
  simp [depthAfter, Ne.symm hoc]

/-! ### The written-out pattern -/

/-- Any character but the two brackets. -/
def other (o c : Char) : Pattern := noneOf (String.ofList [o, c])

/-- What may stand between an opening bracket and its closing one when at most `d` more levels
may nest: a run of other characters and, while a level is left, of bracketed expressions one
level shallower. -/
def inside (o c : Char) : Nat → Pattern
  | 0 => many (other o c)
  | d + 1 => many (alt (other o c)
      (seq (seq (chars (CharSet.range o o)) (inside o c d)) (chars (CharSet.range c c))))

/-- A bracketed expression written out as a pattern, with at most `d` levels nested inside
the outer pair: `o (other | o (other | … o other* c …)* c)* c`. -/
def unrolled (o c : Char) (d : Nat) : Pattern :=
  seq (seq (chars (CharSet.range o o)) (inside o c d)) (chars (CharSet.range c c))

theorem inside_succ (o c : Char) (d : Nat) :
    inside o c (d + 1) = many (alt (other o c) (unrolled o c d)) := rfl

/-- The set of characters other than the brackets holds exactly those: the brackets are
written into the set as themselves. -/
def OtherExact (o c : Char) : Prop :=
  ∀ x, (CharSet.ofString (String.ofList [o, c])).complement.mem x = true ↔ x ≠ o ∧ x ≠ c

variable {text : ByteArray} {i j : Nat}

theorem matches_other_iff (hx : OtherExact o c) :
    Matches text (other o c) i j ↔
      ∃ x w, charAt? text i = some (x, w) ∧ x ≠ o ∧ x ≠ c ∧ j = i + w := by
  rw [other, noneOf, matches_chars_iff]
  constructor
  · rintro ⟨x, w, hc, hs, rfl⟩
    obtain ⟨ho, hc'⟩ := (hx x).1 hs
    exact ⟨x, w, hc, ho, hc', rfl⟩
  · rintro ⟨x, w, hc, ho, hc', rfl⟩
    exact ⟨x, w, hc, (hx x).2 ⟨ho, hc'⟩, rfl⟩

theorem matches_unrolled_iff {d : Nat} : Matches text (unrolled o c d) i j ↔
    ∃ wo p wc, charAt? text i = some (o, wo) ∧ Matches text (inside o c d) (i + wo) p ∧
      charAt? text p = some (c, wc) ∧ j = p + wc := by
  constructor
  · intro h
    cases h with
    | seq h₁ h₂ =>
      cases h₁ with
      | seq ho hin =>
        obtain ⟨wo, hco, rfl⟩ := matches_range_iff.1 ho
        obtain ⟨wc, hcc, rfl⟩ := matches_range_iff.1 h₂
        exact ⟨wo, _, wc, hco, hin, hcc, rfl⟩
  · rintro ⟨wo, p, wc, hco, hin, hcc, rfl⟩
    exact .seq (.seq (matches_range_iff.2 ⟨wo, hco, rfl⟩) hin)
      (matches_range_iff.2 ⟨wc, hcc, rfl⟩)

/-- What the written-out pattern reads between the outer brackets is balanced, with no more
brackets open at once than levels it writes out. -/
theorem matches_inside (hoc : o ≠ c) (hx : OtherExact o c) :
    ∀ (d : Nat) {i j : Nat}, Matches text (inside o c d) i j →
      ∃ u, Reads text i u j ∧ Nested o c d u
  | 0, i, j, h => by
    refine Matches.star_induction (Q := fun i j => ∃ u, Reads text i u j ∧ Nested o c 0 u)
      (fun i => ⟨[], .nil i, rfl⟩) (fun h₁ _ ih => ?_) h
    obtain ⟨x, w, hc, hxo, hxc, rfl⟩ := (matches_other_iff hx).1 h₁
    obtain ⟨u, hr, hu⟩ := ih
    exact ⟨x :: u, .cons hc hr, by simpa [Nested, depthAfter, hxo, hxc] using hu⟩
  | d + 1, i, j, h => by
    refine Matches.star_induction (Q := fun i j => ∃ u, Reads text i u j ∧ Nested o c (d + 1) u)
      (fun i => ⟨[], .nil i, rfl⟩) (fun h₁ _ ih => ?_) h
    obtain ⟨u, hr, hu⟩ := ih
    cases h₁ with
    | altLeft h₁ =>
      -- another character
      obtain ⟨x, w, hc, hxo, hxc, rfl⟩ := (matches_other_iff hx).1 h₁
      exact ⟨x :: u, .cons hc hr, by simpa [Nested, depthAfter, hxo, hxc] using hu⟩
    | altRight h₁ =>
      -- a bracketed expression one level shallower
      obtain ⟨wo, p, wc, hco, hin, hcc, rfl⟩ := matches_unrolled_iff.1 h₁
      obtain ⟨v, hv, hnv⟩ := matches_inside hoc hx d hin
      refine ⟨(o :: v ++ [c]) ++ u, reads_append.2 ⟨_, ?_, hr⟩, ?_⟩
      · exact .cons hco (reads_append.2 ⟨p, hv, .cons hcc (.nil _)⟩)
      · rw [Nested, depthAfter_append, depthAfter_wrap hoc hnv]
        exact hu

theorem inside_nil (m a : Nat) : Matches text (inside o c m) a a := by
  cases m <;> exact .starNil _ _ _

theorem inside_snoc_other {m a p q : Nat} (h : Matches text (inside o c m) a p)
    (hx : Matches text (other o c) p q) : Matches text (inside o c m) a q := by
  cases m with
  | zero => exact h.star_snoc hx
  | succ m => exact h.star_snoc (.altLeft hx)

/-- The expressions still open while a balanced run is read from offset `i`, with at most `d`
levels open: with none open, what has been read is a run the written-out pattern reads;
with `k + 1` open, it is a reading with `k` open, the opening bracket of the innermost open
expression, and what the pattern one level shallower has read since. -/
def Stack (o c : Char) (text : ByteArray) (d i : Nat) : Nat → Nat → Prop
  | 0, j => Matches text (inside o c d) i j
  | k + 1, j => ∃ p w, Stack o c text d i k p ∧ charAt? text p = some (o, w) ∧
      Matches text (inside o c (d - (k + 1))) (p + w) j

variable {d : Nat}

/-- Another character goes on with the innermost open expression. -/
theorem Stack.other {k p q : Nat} (h : Stack o c text d i k p)
    (hx : Matches text (other o c) p q) : Stack o c text d i k q := by
  cases k with
  | zero => exact inside_snoc_other h hx
  | succ k =>
    obtain ⟨p₀, w, hs, hco, hin⟩ := h
    exact ⟨p₀, w, hs, hco, inside_snoc_other hin hx⟩

/-- An opening bracket opens one more expression, read so far up to just after it. -/
theorem Stack.push {k p w : Nat} (h : Stack o c text d i k p) (hc : charAt? text p = some (o, w)) :
    Stack o c text d i (k + 1) (p + w) :=
  ⟨p, w, h, hc, inside_nil _ _⟩

/-- A whole expression, one level shallower than the innermost open one allows, goes on
with it. -/
theorem Stack.item {k p q : Nat} (h : Stack o c text d i k p) (hk : k < d)
    (hu : Matches text (unrolled o c (d - (k + 1))) p q) : Stack o c text d i k q := by
  cases k with
  | zero =>
    obtain ⟨e, rfl⟩ : ∃ e, d = e + 1 := ⟨d - 1, by omega⟩
    have hu' : Matches text (unrolled o c e) p q := by simpa using hu
    exact Matches.star_snoc (k := p) h (.altRight hu')
  | succ k =>
    obtain ⟨p₀, w, hs, hco, hin⟩ := h
    have hlevel : d - (k + 1) = d - (k + 1 + 1) + 1 := by omega
    refine ⟨p₀, w, hs, hco, ?_⟩
    rw [hlevel] at hin ⊢
    exact hin.star_snoc (.altRight hu)

/-- A closing bracket closes the innermost open expression, which goes on with the one around
it. -/
theorem Stack.pop {k p w : Nat} (h : Stack o c text d i (k + 1) p) (hk : k < d)
    (hc : charAt? text p = some (c, w)) : Stack o c text d i k (p + w) := by
  obtain ⟨p₀, w₀, hs, hco, hin⟩ := h
  exact hs.item hk (matches_unrolled_iff.2 ⟨w₀, p, w, hco, hin, hc, rfl⟩)

/-- Reading on keeps the stack of open expressions, as many as the depth reached. -/
theorem Stack.run (hx : OtherExact o c) {j : Nat} (u : List Char) :
    ∀ {k k' p : Nat}, k ≤ d → Stack o c text d i k p → Reads text p u j →
      depthAfter o c d k u = some k' → Stack o c text d i k' j := by
  induction u with
  | nil =>
    intro k k' p _ hs hr hu
    rw [reads_nil_iff.1 hr]
    simp only [depthAfter, Option.some_inj] at hu
    exact hu ▸ hs
  | cons x u ih =>
    intro k k' p hkd hs hr hu
    obtain ⟨w, hc, hr⟩ := reads_cons_iff.1 hr
    simp only [depthAfter] at hu
    by_cases hxo : x = o
    · -- an opening bracket, with room for one more level
      subst hxo
      rw [if_pos rfl] at hu
      by_cases hk : k < d
      · rw [if_pos hk] at hu
        exact ih hk (hs.push hc) hr hu
      · rw [if_neg hk] at hu
        cases hu
    · rw [if_neg hxo] at hu
      by_cases hxc : x = c
      · -- a closing bracket, with some expression open
        subst hxc
        rw [if_pos rfl] at hu
        obtain ⟨k₀, rfl⟩ : ∃ k₀, k = k₀ + 1 := by
          by_cases hk : 0 < k
          · exact ⟨k - 1, by omega⟩
          · rw [if_neg hk] at hu
            cases hu
        rw [if_pos (Nat.succ_pos k₀), Nat.add_sub_cancel] at hu
        exact ih (by omega) (hs.pop (by omega) hc) hr hu
      · rw [if_neg hxc] at hu
        exact ih hkd (hs.other ((matches_other_iff hx).2 ⟨x, w, hc, hxo, hxc, rfl⟩)) hr hu

/-- A balanced run, with no more brackets open at once than the levels written out, is read
by the written-out pattern. -/
theorem inside_of_nested (hx : OtherExact o c) {u : List Char} (hr : Reads text i u j)
    (hu : Nested o c d u) : Matches text (inside o c d) i j :=
  Stack.run hx u (Nat.zero_le d) (inside_nil d i) hr hu

/-- The written-out pattern reads exactly its brackets around a run balanced in them with no
more brackets open at once than the levels it writes out. -/
theorem matches_unrolled_iff_nested (hoc : o ≠ c) (hx : OtherExact o c) :
    Matches text (unrolled o c d) i j ↔
      ∃ u, Reads text i (o :: u ++ [c]) j ∧ Nested o c d u := by
  rw [matches_unrolled_iff]
  constructor
  · rintro ⟨wo, p, wc, hco, hin, hcc, rfl⟩
    obtain ⟨u, hr, hu⟩ := matches_inside hoc hx d hin
    exact ⟨u, .cons hco (reads_append.2 ⟨p, hr, .cons hcc (.nil _)⟩), hu⟩
  · rintro ⟨u, hr, hu⟩
    obtain ⟨wo, hco, hr⟩ := reads_cons_iff.1 hr
    obtain ⟨p, hr, hrc⟩ := reads_append.1 hr
    obtain ⟨wc, hcc, hend⟩ := reads_cons_iff.1 hrc
    exact ⟨wo, p, wc, hco, inside_of_nested hx hr hu, hcc, reads_nil_iff.1 hend⟩

/-! ### The counting step -/

/-- One step of counting, at a character the text holds. -/
theorem balancedStop_succ {limit fuel depth p w : Nat} {x : Char}
    (hx : charAt? text p = some (x, w)) :
    balancedStop text o c limit (fuel + 1) depth p =
      if x = o then (if limit ≤ depth then none
        else balancedStop text o c limit fuel (depth + 1) (p + w))
      else if depth = 0 then none
      else if x = c then (if depth = 1 then some (p + w)
        else balancedStop text o c limit fuel (depth - 1) (p + w))
      else balancedStop text o c limit fuel depth (p + w) := by
  rw [balancedStop, hx]
  simp only [beq_iff_eq]

/-- Counting from `k + 1` open brackets stops after the closing bracket that leaves none
open: it reads a run that leaves none of the `k` open inside the outer pair, then that
bracket. -/
theorem balancedStop_sound (hoc : o ≠ c) {fuel : Nat} :
    ∀ {k p j : Nat}, balancedStop text o c (d + 1) fuel (k + 1) p = some j →
      ∃ u, Reads text p (u ++ [c]) j ∧ depthAfter o c d k u = some 0 := by
  induction fuel with
  | zero => intro k p j h; simp [balancedStop] at h
  | succ fuel ih =>
    intro k p j h
    cases hx : charAt? text p with
    | none => simp [balancedStop, hx] at h
    | some xw =>
      obtain ⟨x, w⟩ := xw
      rw [balancedStop_succ hx, if_neg (Nat.succ_ne_zero k)] at h
      by_cases hxo : x = o
      · -- an opening bracket, with room for it
        subst hxo
        rw [if_pos rfl] at h
        by_cases hk : d + 1 ≤ k + 1
        · rw [if_pos hk] at h
          cases h
        · rw [if_neg hk] at h
          obtain ⟨u, hr, hu⟩ := ih h
          refine ⟨x :: u, .cons hx hr, ?_⟩
          rw [depthAfter, if_pos rfl, if_pos (by omega)]
          exact hu
      · rw [if_neg hxo] at h
        by_cases hxc : x = c
        · subst hxc
          rw [if_pos rfl] at h
          by_cases hk : k = 0
          · -- the bracket that closes the outer one
            subst hk
            rw [if_pos rfl, Option.some_inj] at h
            subst h
            exact ⟨[], .cons hx (.nil _), rfl⟩
          · rw [if_neg (by omega)] at h
            obtain ⟨k₀, rfl⟩ : ∃ k₀, k = k₀ + 1 := ⟨k - 1, by omega⟩
            obtain ⟨u, hr, hu⟩ := ih (k := k₀) (by simpa using h)
            refine ⟨x :: u, .cons hx hr, ?_⟩
            rw [depthAfter, if_neg hxo, if_pos rfl, if_pos (Nat.succ_pos k₀), Nat.add_sub_cancel]
            exact hu
        · rw [if_neg hxc] at h
          obtain ⟨u, hr, hu⟩ := ih h
          refine ⟨x :: u, .cons hx hr, ?_⟩
          rw [depthAfter, if_neg hxo, if_neg hxc]
          exact hu

/-- Counting from `k + 1` open brackets over a run that leaves none of the `k` open, then a
closing bracket, stops right after that bracket, given a character of fuel for each. -/
theorem balancedStop_complete (hoc : o ≠ c) (u : List Char) :
    ∀ {fuel k p j : Nat}, Reads text p (u ++ [c]) j → depthAfter o c d k u = some 0 →
      u.length < fuel → balancedStop text o c (d + 1) fuel (k + 1) p = some j := by
  induction u with
  | nil =>
    intro fuel k p j hr hu hfuel
    obtain ⟨w, hc, hend⟩ := reads_cons_iff.1 hr
    simp only [depthAfter, Option.some_inj] at hu
    subst hu
    obtain ⟨fuel, rfl⟩ : ∃ f, fuel = f + 1 := ⟨fuel - 1, by simp at hfuel; omega⟩
    rw [balancedStop_succ hc, if_neg (Ne.symm hoc), if_neg (Nat.succ_ne_zero 0), if_pos rfl,
      if_pos rfl, reads_nil_iff.1 hend]
  | cons x u ih =>
    intro fuel k p j hr hu hfuel
    obtain ⟨w, hc, hr⟩ := reads_cons_iff.1 hr
    obtain ⟨fuel, rfl⟩ : ∃ f, fuel = f + 1 := ⟨fuel - 1, by simp at hfuel; omega⟩
    simp only [List.length_cons] at hfuel
    rw [balancedStop_succ hc, if_neg (Nat.succ_ne_zero k)]
    simp only [depthAfter] at hu
    by_cases hxo : x = o
    · -- an opening bracket, with room for one more level
      subst hxo
      rw [if_pos rfl] at hu ⊢
      by_cases hk : k < d
      · rw [if_pos hk] at hu
        rw [if_neg (by omega)]
        exact ih hr hu (by omega)
      · rw [if_neg hk] at hu
        cases hu
    · rw [if_neg hxo] at hu ⊢
      by_cases hxc : x = c
      · -- a closing bracket, with a bracket of the run open
        subst hxc
        rw [if_pos rfl] at hu ⊢
        obtain ⟨k₀, rfl⟩ : ∃ k₀, k = k₀ + 1 := by
          by_cases hk : 0 < k
          · exact ⟨k - 1, by omega⟩
          · rw [if_neg hk] at hu
            cases hu
        rw [if_pos (Nat.succ_pos k₀), Nat.add_sub_cancel] at hu
        rw [if_neg (by omega), Nat.add_sub_cancel]
        exact ih hr hu (by omega)
      · rw [if_neg hxc] at hu ⊢
        exact ih hr hu (by omega)

/-- Counting from none open reads the opening bracket first, and goes on with one open. -/
theorem balancedStop_zero_iff {fuel p j : Nat} :
    balancedStop text o c (d + 1) (fuel + 1) 0 p = some j ↔
      ∃ w, charAt? text p = some (o, w) ∧
        balancedStop text o c (d + 1) fuel 1 (p + w) = some j := by
  rw [balancedStop]
  split
  · rename_i hx
    simp [hx]
  · rename_i x w hx
    by_cases hxo : x = o
    · subst hxo
      simp [hx]
    · simp [hx, hxo]

/-- The counting step reads exactly its brackets around a run balanced in them with at most
`d` brackets open at once. -/
theorem matches_balanced_iff (hoc : o ≠ c) :
    Matches text (balanced o c (d + 1)) i j ↔
      ∃ u, Reads text i (o :: u ++ [c]) j ∧ Nested o c d u := by
  constructor
  · intro h
    cases h with
    | balanced h =>
      obtain ⟨w, hco, h⟩ := balancedStop_zero_iff.1 h
      obtain ⟨u, hr, hu⟩ := balancedStop_sound hoc h
      exact ⟨u, .cons hco hr, hu⟩
  · rintro ⟨u, hr, hu⟩
    have hlen := hr.le
    have hsize := hr.le_size (List.cons_ne_nil _ _)
    obtain ⟨w, hco, hr⟩ := reads_cons_iff.1 hr
    have hw := charAt?_width_pos hco
    simp only [List.length_cons, List.length_append] at hlen
    refine .balanced (balancedStop_zero_iff.2 ⟨w, hco, ?_⟩)
    exact balancedStop_complete hoc u hr hu (by omega)

/-! ### Round and angle brackets -/

/-- Every character's code point lies below `0x110000`. -/
theorem toNat_lt_of_char (x : Char) : x.toNat < 0x110000 := by
  have hv : x.val < 0xd800 ∨ (0xdfff < x.val ∧ x.val < 0x110000) := x.valid
  simp only [UInt32.lt_iff_toNat_lt, UInt32.reduceToNat] at hv
  show x.val.toNat < 0x110000
  omega

/-- The class of everything but two brackets is exact once its table of ranges is known
to be ascending and to leave out just the two code points. -/
theorem otherExact_of_ranges {table : Array (Nat × Nat)}
    (ht : (CharSet.ofString (String.ofList [o, c])).complement.ranges = table)
    (hasc : Ranges.Ascending table)
    (hcover : ∀ n < 0x110000,
      (∃ r ∈ table, r.1 ≤ n ∧ n ≤ r.2) ↔ n ≠ o.toNat ∧ n ≠ c.toNat) :
    OtherExact o c := by
  intro x
  rw [CharSet.mem, ht, Ranges.contains_iff hasc, hcover _ (toNat_lt_of_char x), Ne, Ne,
    Char.toNat_inj, Char.toNat_inj]

theorem otherExact_parens : OtherExact '(' ')' :=
  otherExact_of_ranges (show _ = #[(0, 39), (42, 0x10FFFF)] by cbv) (by decide)
    (fun n _ => by simp; omega)

theorem otherExact_angles : OtherExact '<' '>' :=
  otherExact_of_ranges (show _ = #[(0, 59), (61, 61), (63, 0x10FFFF)] by cbv) (by decide)
    (fun n _ => by simp; omega)

end Brackets

open Utf8 Pattern Brackets in
/-- For round and angle brackets, a text is read whole by the written-out pattern at the
scanners' depth, and by the scanners' own step, exactly when it is the opening bracket, a run
balanced with at most `Scan.bracketDepth` brackets open at once, and the closing bracket. -/
theorem bracket_reads_nested (o c : Char) (hpair : (o, c) = ('(', ')') ∨ (o, c) = ('<', '>'))
    (w : String) :
    (Matches w.toUTF8 (unrolled o c Scan.bracketDepth) 0 w.utf8ByteSize ↔
      ∃ u, w.toList = o :: u ++ [c] ∧ Nested o c Scan.bracketDepth u) ∧
    (Matches w.toUTF8 (Scan.bracket o c) 0 w.utf8ByteSize ↔
      ∃ u, w.toList = o :: u ++ [c] ∧ Nested o c Scan.bracketDepth u) := by
  have hpair' : o ≠ c ∧ OtherExact o c := by
    rcases hpair with h | h <;> obtain ⟨rfl, rfl⟩ := Prod.mk.inj h
    · exact ⟨by decide, otherExact_parens⟩
    · exact ⟨by decide, otherExact_angles⟩
  obtain ⟨hoc, hx⟩ := hpair'
  -- both sides read the text from its first byte to its last, so they read its characters
  have hreads : ∀ u,
      Reads w.toUTF8 0 (o :: u ++ [c]) w.utf8ByteSize ↔ w.toList = o :: u ++ [c] :=
    fun u => (reads_toUTF8_iff w _).trans eq_comm
  constructor
  · rw [matches_unrolled_iff_nested hoc hx]
    simp only [hreads]
  · rw [Scan.bracket, matches_balanced_iff hoc]
    simp only [hreads]

/-- The round brackets of a call with a nested argument list are read whole by the scanners'
step. -/
theorem bracket_reads_nested_call :
    (('(', ')') = ('(', ')') ∨ ('(', ')') = ('<', '>')) ∧
    Pattern.Matches "(a, (b))".toUTF8 (Scan.bracket '(' ')') 0 "(a, (b))".utf8ByteSize :=
  ⟨Or.inl rfl, (bracket_reads_nested '(' ')' (Or.inl rfl) "(a, (b))").2.2
    ⟨['a', ',', ' ', '(', 'b', ')'], by decide +kernel, by decide⟩⟩

end Lineage
