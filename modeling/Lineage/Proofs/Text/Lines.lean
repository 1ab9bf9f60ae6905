import Lineage.Proofs.Overlay.Masking
import Lineage.Symbol.Basic
/-!
Line numbers of byte offsets.

Two parts of the library number the lines of a text. A file record keeps the offsets where
lines start, the start of the text and the offset after each line feed, and numbers an
offset by a binary search of them (`FileRecord.lineOf`): a start found at index `i` begins
line `i + 1`, and an offset between starts lies on line `i` when `i` is where it would be
inserted. An overlay counts the line feed bytes of its source before the offset, clamped to
the text (`Overlay.lineOf`).

The halving of the search keeps a window whose first entry is not above the offset and whose
next entry past it is (`SearchWindow`), so on ascending entries it settles on the last entry
not above the offset (`binarySearch_spec`). The line starts ascend strictly
(`FileRecord.lineStartsOf_ascending`), so the line is the number of starts at or before the
offset (`FileRecord.lineOf_eq_length_filter`). Both ways count the line feeds among the first
bytes of the text, one line more: the line starts at or before `pos` are the start of the
text and one start after each line feed byte at an offset below `pos`
(`FileRecord.lineOf_new`). An overlay reads only its source, which no
edit changes (`Overlay.Edit.source_applyAll`), so masking keeps every line number.

* `lineOf_counts_newlines`: the line of any offset in any text, by the file record and by
  the overlay after any edits, is one more than the number of line feed bytes before the
  offset.
-/
namespace Lineage

open Utf8

/-- The bytes of a byte array, read one after the other, are its data. -/
theorem ByteArray.toList_eq_data_toList (bs : ByteArray) : bs.toList = bs.data.toList := by
  have hloop : ∀ i r, ByteArray.toList.loop bs i r = r.reverse ++ bs.data.toList.drop i := by
    intro i r
    fun_induction ByteArray.toList.loop bs i r with
    | case1 i r hi ih =>
      rw [ih, List.reverse_cons, List.append_assoc, List.singleton_append]
      congr 1
      have hlen : i < bs.data.toList.length := by simpa using hi
      have hget : bs.get! i = bs.data.toList[i] := by
        simp only [ByteArray.get!, ByteArray.size_data, hi, getElem!_pos, Array.getElem_toList]
      rw [hget, List.getElem_cons_drop]
    | case2 i r hi =>
      rw [List.drop_eq_nil_of_le (by simpa using hi), List.append_nil]
  unfold ByteArray.toList
  simpa using hloop 0 []

/-- Among the offsets below `n`, those before `pos` that hold a line feed are as many as the
line feed bytes among the first `min n pos` bytes. -/
theorem length_filter_newline (bs : ByteArray) (pos : Nat) :
    ∀ n, n ≤ bs.size →
      ((List.range n).filter fun i => byteAt bs i == 10 && decide (i < pos)).length =
        (bs.toList.take (min n pos)).count 10
  | 0, _ => by simp
  | n + 1, hn => by
    have ih := length_filter_newline bs pos n (by omega)
    have hlen : n < bs.toList.length := by
      rw [ByteArray.toList_eq_data_toList, Array.length_toList]
      exact hn
    have hbyte : (byteAt bs n == 10) = (bs.toList[n] == 10) := by
      have hdata : bs.toList[n] = bs[n] := by
        simp only [ByteArray.toList_eq_data_toList, Array.getElem_toList]
        rfl
      rw [hdata, byteAt, dif_pos (by omega), Bool.eq_iff_iff, beq_iff_eq, beq_iff_eq]
      exact ⟨fun h => UInt8.toNat_inj.1 h, fun h => by rw [h]; rfl⟩
    rw [List.range_succ, List.filter_append, List.length_append, ih]
    by_cases hpos : n < pos
    · -- the byte at `n` is among those counted
      rw [show min (n + 1) pos = min n pos + 1 by omega, show min n pos = n by omega,
        List.take_add_one, List.getElem?_eq_getElem hlen, List.count_append]
      by_cases hb : bs.toList[n] = 10 <;> simp [hbyte, hb, hpos]
    · rw [show min (n + 1) pos = min n pos by omega]
      simp [hpos]

namespace Overlay

/-- The line feeds among the first `n` bytes, counted in the list of the bytes. -/
theorem countNewlines_eq (bs : ByteArray) (n : Nat) :
    countNewlines bs n = (bs.toList.take n).count 10 := by
  rw [countNewlines, List.count_eq_length_filter, ByteArray.toList_eq_data_toList,
    ByteArray.toList_eq_data_toList, ByteArray.data_extract, Array.toList_extract,
    List.extract_eq_take_drop, List.drop_zero, Nat.sub_zero]

/-- The line of an offset is one more than the number of line feeds of the source before
the offset, clamped to the text. -/
theorem lineOf_eq_count (t : Overlay) (pos : Nat) :
    t.lineOf pos = (t.source.toList.take (min pos t.source.size)).count 10 + 1 := by
  rw [lineOf, countNewlines_eq]

/-- Edits in order keep the source. -/
theorem Edit.source_applyAll : ∀ (edits : List Edit) (t : Overlay),
    (Edit.applyAll edits t).source = t.source
  | [], _ => rfl
  | e :: es, t => (Edit.source_applyAll es (e.apply t)).trans (Edit.source_apply e t)

end Overlay

/-! ### Binary search -/

section BinarySearch

variable {a : Array Nat} {x : Nat}

/-- In an ascending array, an entry is not above any entry after it. -/
theorem getD_le_getD (ha : a.toList.Pairwise (· ≤ ·)) {i j : Nat} (hij : i ≤ j)
    (hj : j < a.size) : a[i]?.getD 0 ≤ a[j]?.getD 0 := by
  rcases Nat.eq_or_lt_of_le hij with rfl | hlt
  · exact Nat.le_refl _
  rw [Array.getElem?_eq_getElem (Nat.lt_trans hlt hj), Array.getElem?_eq_getElem hj,
    Option.getD_some, Option.getD_some]
  have hle := List.pairwise_iff_getElem.1 ha i j (by simp; omega) (by simpa using hj) hlt
  simp only [Array.getElem_toList] at hle
  exact hle

/-- What the halving of a binary search for `x` keeps of its window of `size` entries from
`base`: the window is nonempty and inside the array, the entry at `base` is not above `x`
unless the window starts the array, and the entry just past the window is above `x` unless
the window ends the array. -/
structure SearchWindow (a : Array Nat) (x base size : Nat) : Prop where
  nonempty : 0 < size
  inside : base + size ≤ a.size
  low : 0 < base → a[base]?.getD 0 ≤ x
  high : base + size < a.size → x < a[base + size]?.getD 0

theorem searchWindow_start (h : 0 < a.size) : SearchWindow a x 0 a.size :=
  ⟨h, by omega, fun h0 => absurd h0 (Nat.lt_irrefl 0), fun h' => absurd h' (by omega)⟩

/-- One round of halving keeps the window. -/
theorem SearchWindow.halve (ha : a.toList.Pairwise (· ≤ ·)) {base size : Nat}
    (h : SearchWindow a x base size) (hs : 1 < size) :
    SearchWindow a x (if x < a[base + size / 2]?.getD 0 then base else base + size / 2)
      (size - size / 2) := by
  have hin := h.inside
  split
  · -- the middle entry lies above `x`, and so does every entry from it on
    rename_i hx
    refine ⟨by omega, by omega, h.low, fun hlt => ?_⟩
    exact Nat.lt_of_lt_of_le hx (getD_le_getD ha (by omega) hlt)
  · rename_i hx
    have hend : base + size / 2 + (size - size / 2) = base + size := by omega
    refine ⟨by omega, by omega, fun _ => Nat.le_of_not_lt hx, fun hlt => ?_⟩
    rw [hend] at hlt ⊢
    exact h.high hlt

/-- The halving rounds end on a window of one entry. -/
theorem SearchWindow.settle (ha : a.toList.Pairwise (· ≤ ·)) {base size : Nat}
    (h : SearchWindow a x base size) : SearchWindow a x (searchBase a x base size) 1 := by
  fun_induction searchBase a x base size with
  | case1 base size hs =>
    obtain rfl : size = 1 := by have := h.nonempty; omega
    exact h
  | case2 base size hs half mid ih => exact ih (h.halve ha (by omega))

/-- The entries of a list not above `x` are its first `k` when those are all not above `x`
and the others all above it. -/
theorem filter_le_eq_take {l : List Nat} {k : Nat}
    (hlow : ∀ i (hi : i < l.length), i < k → l[i] ≤ x)
    (hhigh : ∀ i (hi : i < l.length), k ≤ i → x < l[i]) :
    l.filter (· ≤ x) = l.take k := by
  conv_lhs => rw [← List.take_append_drop k l]
  have htake : (l.take k).filter (· ≤ x) = l.take k := by
    refine List.filter_eq_self.2 fun y hy => ?_
    obtain ⟨j, hj, rfl⟩ := List.mem_take_iff_getElem.1 hy
    simpa using hlow j (by omega) (by omega)
  have hdrop : (l.drop k).filter (· ≤ x) = [] := by
    refine List.filter_eq_nil_iff.2 fun y hy => ?_
    obtain ⟨j, hj, rfl⟩ := List.mem_drop_iff_getElem.1 hy
    simpa using hhigh (k + j) (by omega) (by omega)
  rw [List.filter_append, htake, hdrop, List.append_nil]

/-- Where the halving of an ascending array settles, the entries not above `x` end: they are
the entries up to the one it settles on when that one is not above `x`, and none otherwise,
the window then starting the array. -/
theorem SearchWindow.filter_le (ha : a.toList.Pairwise (· ≤ ·)) {b : Nat}
    (h : SearchWindow a x b 1) :
    a.toList.filter (· ≤ x) = a.toList.take (if a[b]?.getD 0 ≤ x then b + 1 else b) := by
  have hb : b < a.size := by have := h.inside; omega
  have hread : ∀ i (hi : i < a.toList.length), a.toList[i] = a[i]?.getD 0 := fun i hi => by
    rw [Array.getElem_toList, Array.getElem?_eq_getElem (by simpa using hi), Option.getD_some]
  refine filter_le_eq_take (fun i hi hik => ?_) (fun i hi hki => ?_)
  · -- an entry before the cut is not above the entry settled on, which is not above `x`
    rw [hread i hi]
    split at hik
    · exact Nat.le_trans (getD_le_getD ha (by omega) hb) ‹_›
    · have h0 := h.low
      omega
  · -- an entry from the cut on is not below the entry after the window, or the one settled on
    rw [hread i hi]
    have hi' : i < a.size := by simpa using hi
    split at hki
    · exact Nat.lt_of_lt_of_le (h.high (by omega)) (getD_le_getD ha hki hi')
    · rename_i hx
      exact Nat.lt_of_lt_of_le (Nat.lt_of_not_le hx) (getD_le_getD ha hki hi')

/-- So the number of entries not above `x` is read off the entry the halving settles on. -/
theorem SearchWindow.length_filter_le (ha : a.toList.Pairwise (· ≤ ·)) {b : Nat}
    (h : SearchWindow a x b 1) :
    (a.toList.filter (· ≤ x)).length = if a[b]?.getD 0 ≤ x then b + 1 else b := by
  have hb : b < a.size := by have := h.inside; omega
  rw [h.filter_le ha, List.length_take, Array.length_toList]
  split <;> omega

/-- Where the halving settles on an entry other than `x`, `x` is not in the array: it would be
among the entries not above it, which end at the entry settled on. -/
theorem SearchWindow.not_mem (ha : a.toList.Pairwise (· ≤ ·)) {b : Nat}
    (h : SearchWindow a x b 1) (hx : a[b]?.getD 0 ≠ x) : x ∉ a.toList := by
  intro hmem
  have hb : b < a.size := by have := h.inside; omega
  have hin : x ∈ a.toList.take (if a[b]?.getD 0 ≤ x then b + 1 else b) := by
    rw [← h.filter_le ha]
    exact List.mem_filter.2 ⟨hmem, by simp⟩
  obtain ⟨j, hj, hjx⟩ := List.mem_take_iff_getElem.1 hin
  have hj' : j < a.size := by simpa using Nat.lt_of_lt_of_le hj (Nat.min_le_right _ _)
  have hread : a[j]?.getD 0 = x := by
    rw [← hjx, Array.getElem_toList, Array.getElem?_eq_getElem hj', Option.getD_some]
  split at hj
  · -- `x` stands at or before the entry settled on, which is not above it
    have hjb := getD_le_getD ha (i := j) (by omega) hb
    omega
  · -- the entry settled on lies above `x`, so the window starts the array
    rename_i hvx
    have hb0 : b = 0 := by
      by_contra hne
      exact hvx (h.low (Nat.pos_of_ne_zero hne))
    omega

/-- A binary search of an ascending array finds `x` at the last entry not above it, one
before the end of the entries not above `x`; or `x` is not in the array, and the search gives
the end of those entries, where `x` would be inserted. -/
theorem binarySearch_spec (ha : a.toList.Pairwise (· ≤ ·)) :
    (∃ i, binarySearch a x = .ok i ∧ a[i]? = some x ∧
      i + 1 = (a.toList.filter (· ≤ x)).length) ∨
    (∃ i, binarySearch a x = .error i ∧ x ∉ a.toList ∧
      i = (a.toList.filter (· ≤ x)).length) := by
  unfold binarySearch
  by_cases h0 : a.size = 0
  · rw [if_pos h0]
    have hnil : a.toList = [] := by simpa using h0
    exact .inr ⟨0, rfl, by simp [hnil], by simp [hnil]⟩
  rw [if_neg h0]
  have hw := (searchWindow_start (x := x) (Nat.pos_of_ne_zero h0)).settle ha
  generalize searchBase a x 0 a.size = b at hw ⊢
  have hb : b < a.size := by have := hw.inside; omega
  have hlen := hw.length_filter_le ha
  have hv : a[b]? = some (a[b]?.getD 0) := by rw [Array.getElem?_eq_getElem hb]; rfl
  dsimp only
  split
  · rename_i hx
    refine .inl ⟨b, rfl, hx ▸ hv, ?_⟩
    rw [hlen, if_pos (Nat.le_of_eq hx)]
  · rename_i hx
    refine .inr ⟨_, rfl, hw.not_mem ha hx, ?_⟩
    rw [hlen]
    split <;> rename_i hlt
    · rw [if_pos (Nat.le_of_lt hlt)]
    · rw [if_neg (by omega)]

end BinarySearch

namespace FileRecord

/-- Scanning the offsets below `n` for line feeds adds, after what is there, one more than
each offset that holds one. -/
theorem foldl_lineStarts (bs : ByteArray) (n : Nat) (acc : Array Nat) :
    ((List.range n).foldl (fun acc i => if byteAt bs i == 10 then acc.push (i + 1) else acc)
      acc).toList =
      acc.toList ++ ((List.range n).filter fun i => byteAt bs i == 10).map (· + 1) := by
  induction n generalizing acc with
  | zero => simp
  | succ n ih =>
    rw [List.range_succ, List.foldl_append, List.foldl_cons, List.foldl_nil, List.filter_append,
      List.map_append]
    split
    · rename_i hb
      rw [Array.toList_push, ih]
      simp [hb]
    · rename_i hb
      rw [ih]
      simp [hb]

/-- A file's lines start at offset 0 and one past each line feed byte, in order. -/
theorem lineStartsOf_toList (bs : ByteArray) :
    (lineStartsOf bs).toList =
      0 :: ((List.range bs.size).filter fun i => byteAt bs i == 10).map (· + 1) := by
  rw [lineStartsOf, foldl_lineStarts]
  rfl

/-- A file's line starts ascend strictly: offset 0 first, then one past each line feed, in
the order of the line feeds. -/
theorem lineStartsOf_ascending (bs : ByteArray) : (lineStartsOf bs).toList.Pairwise (· < ·) := by
  rw [lineStartsOf_toList, List.pairwise_cons]
  refine ⟨fun i hi => ?_, ?_⟩
  · obtain ⟨j, -, rfl⟩ := List.mem_map.1 hi
    exact Nat.succ_pos j
  · rw [List.pairwise_map]
    exact (List.pairwise_lt_range.sublist List.filter_sublist).imp fun h => Nat.add_lt_add_right h 1

/-- On ascending line starts, the line of an offset is the number of starts at or before it:
the search finds the offset at the start of its line, or settles after the starts before it. -/
theorem lineOf_eq_length_filter {f : FileRecord} (hs : f.lineStarts.toList.Pairwise (· ≤ ·))
    (pos : Nat) : f.lineOf pos = (f.lineStarts.toList.filter (· ≤ pos)).length := by
  unfold lineOf
  rcases binarySearch_spec (x := pos) hs with ⟨i, h, -, hi⟩ | ⟨i, h, -, hi⟩ <;> rw [h]
  · exact hi
  · exact hi

/-- The line of an offset in a file made from a text: one more than the number of line feeds
before the offset, clamped to the text. -/
theorem lineOf_new (path content : String) (pos : Nat) :
    (new path content).lineOf pos =
      (content.toUTF8.toList.take (min pos content.utf8ByteSize)).count 10 + 1 := by
  have hsize : content.toUTF8.size = content.utf8ByteSize := rfl
  -- the start of the text is at or before every offset; the start after a line feed at `i`
  -- is at or before `pos` exactly when `i` lies before `pos`
  have hstarts : ((lineStartsOf content.toUTF8).toList.filter (· ≤ pos)) =
      0 :: (((List.range content.toUTF8.size).filter fun i =>
        byteAt content.toUTF8 i == 10 && decide (i < pos)).map (· + 1)) := by
    rw [lineStartsOf_toList, List.filter_cons_of_pos (by simp), List.filter_map,
      List.filter_filter]
    congr 2
    refine List.filter_congr fun i _ => ?_
    rw [Bool.and_comm]
    simp only [Function.comp_apply, Nat.add_one_le_iff]
  rw [lineOf_eq_length_filter ((lineStartsOf_ascending _).imp Nat.le_of_lt), new, hstarts,
    List.length_cons, List.length_map, length_filter_newline _ pos _ (Nat.le_refl _), hsize,
    Nat.min_comm]

end FileRecord

open Overlay in
/-- The line of a byte offset, counted from one, is one more than the number of line feed
bytes of the text before the offset, clamped to the text's length. A file record made from
the text numbers it so, and so does an overlay of the text, after any sequence of masking
edits as before the first. -/
theorem lineOf_counts_newlines (path content : String) (edits : List Edit) (pos : Nat) :
    (FileRecord.new path content).lineOf pos = (Edit.applyAll edits (ofString content)).lineOf pos ∧
    (Edit.applyAll edits (ofString content)).lineOf pos =
      (content.toUTF8.toList.take (min pos content.utf8ByteSize)).count 10 + 1 := by
  have hoverlay : (Edit.applyAll edits (ofString content)).lineOf pos =
      (content.toUTF8.toList.take (min pos content.utf8ByteSize)).count 10 + 1 := by
    rw [lineOf_eq_count, Edit.source_applyAll]
    rfl
  exact ⟨(FileRecord.lineOf_new path content pos).trans hoverlay.symm, hoverlay⟩

/-- The lines of a text with an empty line, as the file record and an overlay number them. -/
example : (FileRecord.new "pkg/mod.py" "a\nbb\n\nc").lineOf 6 = 4 ∧
    (Overlay.ofString "a\nbb\n\nc").lineOf 3 = 2 := by decide +kernel

end Lineage
