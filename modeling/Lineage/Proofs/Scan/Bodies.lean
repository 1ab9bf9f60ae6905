import Lineage.Python.Scan
import Lineage.Proofs.Scan.Censoring
/-!
Where a Python body ends.

A header's body ends with the header's own line when something shows on the rest of that
line. Otherwise the lines after it are walked: a blank line (blanks and the mask character
only) is passed over, a line indented deeper than the header extends the body to its end, and
any other line ends the walk. The body therefore ends with the last non-blank line of the run
of lines after the header line whose non-blank lines are all deeper, or with the header's line
when that run has none.

The lines are described by their offsets and not by the walk. A line after offset `p` starts
past `p` right after a line feed (`LineAfter`) and ends at the first line feed at or after its
start, or at the end of the text (`EndsLine`), which `lineEnd` finds (`lineEnd_endsLine`).
The lines after a line feed are the next line and the lines after that one
(`lineAfter_iff`), so each round of the walk either moves the run on by one line
(`EndsRun.of_blank`, `EndsRun.of_deeper`) or finds it empty (`EndsRun.of_shallow`).

* `bodyLines_endsRun`: the walk from the end of a line gives the end of the run after it;
* `body_ends_after_deeper_lines`: the end of a body is a character boundary between the
  header's end and the end of the text, and it is the header line's end or the end of the run;
  every line the walk cuts out starts and ends at a character boundary.
-/
namespace Lineage

namespace Utf8

variable {bs : ByteArray} {i : Nat}

/-- In valid UTF-8 the offset after an ASCII byte is a character boundary. -/
theorem Valid.isBoundary_succ (hv : Valid bs) (hi : i < bs.size) (hb : byteAt bs i < 0x80) :
    isBoundary bs (i + 1) = true := by
  obtain ⟨c, w, hc, hend⟩ := hv i hi (isBoundary_of_lt hi hb)
  rw [decodeAt_of_lt hb, Item.char.injEq] at hc
  rw [← hc.2] at hend
  exact hend

end Utf8

namespace Python

open Utf8

/-! ### Lines -/

/-- `e` ends the line through `i`: it is the first line feed at or after `i`, or the end of
the text. -/
structure EndsLine (bs : ByteArray) (i e : Nat) : Prop where
  le : i ≤ e
  le_size : e ≤ bs.size
  no_feed : ∀ k, i ≤ k → k < e → byteAt bs k ≠ 10
  at_feed : e = bs.size ∨ byteAt bs e = 10

/-- A line after offset `p` runs from `s` to `e`: it starts past `p`, right after a line
feed. -/
structure LineAfter (bs : ByteArray) (p s e : Nat) : Prop where
  lt : p < s
  feed : byteAt bs (s - 1) = 10
  ends : EndsLine bs s e

variable {bs : ByteArray} {indent : String} {i e e' p s d r : Nat}

theorem lineEnd_go_endsLine (hi : i ≤ bs.size) :
    ∀ (fuel j : Nat), i ≤ j → j ≤ bs.size → (∀ k, i ≤ k → k < j → byteAt bs k ≠ 10) →
      bs.size - j < fuel → EndsLine bs i (lineEnd.go bs fuel j)
  | 0, _, _, _, _, hfuel => absurd hfuel (Nat.not_lt_zero _)
  | fuel + 1, j, hij, hj, hnone, hfuel => by
    unfold lineEnd.go
    split
    · rename_i hstop
      simp only [Bool.or_eq_true, decide_eq_true_eq, beq_iff_eq] at hstop
      rw [Nat.min_eq_left hj]
      exact ⟨hij, hj, hnone, hstop.imp (fun h => by omega) id⟩
    · rename_i hgo
      simp only [Bool.or_eq_true, decide_eq_true_eq, beq_iff_eq, not_or, Nat.not_le] at hgo
      -- the byte at `j` is no line feed, so the line goes on past it
      refine lineEnd_go_endsLine hi fuel (j + 1) (by omega) (by omega) (fun k hk hkj => ?_)
        (by omega)
      rcases Nat.lt_or_ge k j with hkj' | hkj'
      · exact hnone k hk hkj'
      · rw [show k = j by omega]
        exact hgo.2

/-- `lineEnd` finds the end of the line through any offset inside the text. -/
theorem lineEnd_endsLine (hi : i ≤ bs.size) : EndsLine bs i (lineEnd bs i) :=
  lineEnd_go_endsLine hi _ i (Nat.le_refl i) hi (fun _ h h' => absurd h' (by omega)) (by omega)

/-- A line ends at or before any other offset that could end it. -/
theorem EndsLine.le_of_endsLine (h : EndsLine bs i e) (h' : EndsLine bs i e') : e ≤ e' := by
  by_contra hlt
  -- `e'` would lie inside the line, so it is neither the end of the text nor a line feed
  rcases h'.at_feed with hend | hfeed
  · have := h.le_size
    omega
  · exact h.no_feed e' h'.le (by omega) hfeed

theorem EndsLine.unique (h : EndsLine bs i e) (h' : EndsLine bs i e') : e = e' :=
  Nat.le_antisymm (h.le_of_endsLine h') (h'.le_of_endsLine h)

/-- A line feed lies inside the text. -/
theorem lt_size_of_feed (h : byteAt bs i = 10) : i < bs.size :=
  lt_size_of_byteAt_pos (by omega)

/-- A line ends at a character boundary, whatever the bytes. -/
theorem EndsLine.isBoundary (h : EndsLine bs i e) : isBoundary bs e = true := by
  rcases h.at_feed with hend | hfeed
  · simp [Utf8.isBoundary, hend]
  · exact isBoundary_of_lt (lt_size_of_feed hfeed) (by omega)

/-- In valid UTF-8 a line after a line feed starts at a character boundary. -/
theorem LineAfter.isBoundary_start (hv : Valid bs) (h : LineAfter bs p s e) :
    isBoundary bs s = true := by
  have hfeed := h.feed
  have hs := hv.isBoundary_succ (lt_size_of_feed hfeed) (by omega)
  rwa [Nat.sub_add_cancel (by have := h.lt; omega)] at hs

/-- No line starts past the end of the text. -/
theorem LineAfter.lt_size (h : LineAfter bs p s e) : p < bs.size := by
  have := h.ends.le
  have := h.ends.le_size
  have := h.lt
  omega

/-- The lines after a line feed at `p` are the line right after it and the lines after the
end of that line. -/
theorem lineAfter_iff (hp : byteAt bs p = 10) (hnext : EndsLine bs (p + 1) e') :
    LineAfter bs p s e ↔ (s = p + 1 ∧ e = e') ∨ LineAfter bs e' s e := by
  constructor
  · intro h
    rcases Nat.lt_or_ge (p + 1) s with hs | hs
    · -- a later line starts after a line feed, which cannot lie inside the next line
      have hlt : e' < s := by
        by_contra hle
        exact hnext.no_feed (s - 1) (by omega) (by omega) h.feed
      exact .inr ⟨hlt, h.feed, h.ends⟩
    · have hs' : s = p + 1 := by have := h.lt; omega
      subst hs'
      exact .inl ⟨rfl, h.ends.unique hnext⟩
  · rintro (⟨rfl, rfl⟩ | h)
    · exact ⟨Nat.lt_succ_self p, by simpa using hp, hnext⟩
    · exact ⟨by have := hnext.le; have := h.lt; omega, h.feed, h.ends⟩

/-! ### Blank and deeper lines -/

/-- A line where nothing shows: blanks and the mask character only. -/
def BlankLine (line : String) : Prop := ∀ c ∈ line.toList, ¬ Overlay.Shows c

/-- A line indented deeper than `indent`: it starts with `indent`, then a space or a tab. -/
def Deeper (line indent : String) : Prop :=
  ∃ c rest, line.toList = indent.toList ++ c :: rest ∧ (c = ' ' ∨ c = '\t')

theorem isBlankLine_iff (line : String) : isBlankLine line = true ↔ BlankLine line := by
  simp only [isBlankLine, BlankLine, Overlay.Shows, List.all_eq_true, Bool.or_eq_true, beq_iff_eq,
    ne_eq, Bool.not_eq_false, not_and]
  refine forall₂_congr fun c _ => ?_
  by_cases hc : c = Char.ofNat 0x1a <;> simp [hc]

theorem isDeeper_iff (line indent : String) : isDeeper line indent = true ↔ Deeper line indent := by
  unfold isDeeper
  rw [Bool.and_eq_true, show indent.isPrefixOf line = line.startsWith indent from rfl,
    String.startsWith_string_iff]
  constructor
  · rintro ⟨⟨rest, hrest⟩, hnext⟩
    rw [← hrest, ← String.length_toList, List.drop_left] at hnext
    cases rest with
    | nil => simp at hnext
    | cons c rest =>
      simp only [List.head?_cons, Bool.or_eq_true, beq_iff_eq] at hnext
      exact ⟨c, rest, hrest.symm, hnext⟩
  · rintro ⟨c, rest, hline, hc⟩
    refine ⟨⟨c :: rest, hline.symm⟩, ?_⟩
    rw [hline, ← String.length_toList, List.drop_left]
    simpa using hc

/-! ### The run of deeper lines -/

/-- The line from `s` to `e` lies in the run of lines after `p` whose non-blank lines are all
deeper than `indent`. -/
structure InRun (bs : ByteArray) (indent : String) (p s e : Nat) : Prop where
  line : LineAfter bs p s e
  deeper : ∀ s' e', LineAfter bs p s' e' → s' ≤ s → ¬ BlankLine (slice bs s' e') →
    Deeper (slice bs s' e') indent

/-- `r` ends the run after `p`: it is the end of the run's last non-blank line, or `d` when
the run has none. -/
def EndsRun (bs : ByteArray) (indent : String) (p d r : Nat) : Prop :=
  (r = d ∧ ∀ s e, InRun bs indent p s e → BlankLine (slice bs s e)) ∨
  ∃ s, InRun bs indent p s r ∧ ¬ BlankLine (slice bs s r) ∧
    ∀ s' e, InRun bs indent p s' e → s < s' → BlankLine (slice bs s' e)

/-- A line after `p` that starts by `p + 1` is the next line. -/
theorem LineAfter.eq_next (h : LineAfter bs p s e) (hs : s ≤ p + 1)
    (hnext : EndsLine bs (p + 1) e') : s = p + 1 ∧ e = e' := by
  have hs' : s = p + 1 := by have := h.lt; omega
  subst hs'
  exact ⟨rfl, h.ends.unique hnext⟩

/-- A line of the run after the end of the next line starts past the next line. -/
theorem InRun.succ_lt (h : InRun bs indent e' s e) (hnext : EndsLine bs (p + 1) e') :
    p + 1 < s := by
  have := hnext.le
  have := h.line.lt
  omega

section Step

/-! One round of the walk reads the line from `p + 1` to `e'` right after the line feed at
`p`. -/

variable (hp : byteAt bs p = 10) (hnext : EndsLine bs (p + 1) e')
include hp hnext

/-- Past a line that is blank or deeper, the run after `p` is that line and the run after its
end. -/
theorem inRun_iff (hpass : BlankLine (slice bs (p + 1) e') ∨ Deeper (slice bs (p + 1) e') indent)
    (s e : Nat) : InRun bs indent p s e ↔ (s = p + 1 ∧ e = e') ∨ InRun bs indent e' s e := by
  -- the next line never stops the run, so each line after `p` is judged as after `e'`
  have hfirst : ∀ s' e'', s' = p + 1 → e'' = e' → ¬ BlankLine (slice bs s' e'') →
      Deeper (slice bs s' e'') indent := by
    rintro s' e'' rfl rfl hshow
    exact hpass.resolve_left hshow
  constructor
  · intro h
    refine ((lineAfter_iff hp hnext).1 h.line).imp id fun hl => ⟨hl, fun s' e'' hl' hs' =>
      h.deeper s' e'' ((lineAfter_iff hp hnext).2 (.inr hl')) hs'⟩
  · rintro (⟨hs, he⟩ | h)
    · refine ⟨(lineAfter_iff hp hnext).2 (.inl ⟨hs, he⟩), fun s' e'' hl' hs' => ?_⟩
      obtain ⟨hs'', he''⟩ := hl'.eq_next (by omega) hnext
      exact hfirst s' e'' hs'' he''
    · refine ⟨(lineAfter_iff hp hnext).2 (.inr h.line), fun s' e'' hl' hs' => ?_⟩
      rcases (lineAfter_iff hp hnext).1 hl' with ⟨hs'', he''⟩ | hl'
      · exact hfirst s' e'' hs'' he''
      · exact h.deeper s' e'' hl' hs'

/-- A line that shows and is not deeper leaves the run after `p` empty. -/
theorem not_inRun (hshow : ¬ BlankLine (slice bs (p + 1) e'))
    (hshallow : ¬ Deeper (slice bs (p + 1) e') indent) : ¬ InRun bs indent p s e := fun h =>
  hshallow (h.deeper (p + 1) e' ((lineAfter_iff hp hnext).2 (.inl ⟨rfl, rfl⟩))
    (by have := h.line.lt; omega) hshow)

/-- A blank next line neither extends the run nor ends it. -/
theorem EndsRun.of_blank (hblank : BlankLine (slice bs (p + 1) e'))
    (h : EndsRun bs indent e' d r) : EndsRun bs indent p d r := by
  have hpass : BlankLine (slice bs (p + 1) e') ∨ Deeper (slice bs (p + 1) e') indent := .inl hblank
  have hrun := inRun_iff hp hnext hpass
  rcases h with ⟨hr, hall⟩ | ⟨s, hs, hshow, hlast⟩
  · refine .inl ⟨hr, fun s e hl => ?_⟩
    rcases (hrun s e).1 hl with ⟨hs, he⟩ | hl
    · rwa [hs, he]
    · exact hall s e hl
  · refine .inr ⟨s, (hrun s r).2 (.inr hs), hshow, fun s' e hl hss' => ?_⟩
    rcases (hrun s' e).1 hl with ⟨hs', -⟩ | hl
    · exact absurd hss' (by have := hs.succ_lt hnext; omega)
    · exact hlast s' e hl hss'

/-- A deeper next line that shows ends the run, unless a later line of the run shows. -/
theorem EndsRun.of_deeper (hshow : ¬ BlankLine (slice bs (p + 1) e'))
    (hdeeper : Deeper (slice bs (p + 1) e') indent) (h : EndsRun bs indent e' e' r) :
    EndsRun bs indent p d r := by
  have hrun := inRun_iff hp hnext (.inr hdeeper)
  -- a line of the run after `p` other than the next one lies in the run after `e'`
  have hlater : ∀ s' e, InRun bs indent p s' e → p + 1 < s' → InRun bs indent e' s' e :=
    fun s' e hl hs' => ((hrun s' e).1 hl).resolve_left fun h => by omega
  rcases h with ⟨hr, hall⟩ | ⟨s, hs, hshow', hlast⟩
  · refine .inr ⟨p + 1, (hrun (p + 1) r).2 (.inl ⟨rfl, hr⟩), hr ▸ hshow, fun s' e hl hs' => ?_⟩
    exact hall s' e (hlater s' e hl hs')
  · refine .inr ⟨s, (hrun s r).2 (.inr hs), hshow', fun s' e hl hss' => ?_⟩
    exact hlast s' e (hlater s' e hl (by have := hs.succ_lt hnext; omega)) hss'

/-- A next line that shows and is not deeper ends the walk where it stands. -/
theorem EndsRun.of_shallow (hshow : ¬ BlankLine (slice bs (p + 1) e'))
    (hshallow : ¬ Deeper (slice bs (p + 1) e') indent) : EndsRun bs indent p d d :=
  .inl ⟨rfl, fun _ _ h => absurd h (not_inRun hp hnext hshow hshallow)⟩

end Step

/-- Past the end of the text there is no line, so the run is empty. -/
theorem EndsRun.at_end : EndsRun bs indent bs.size d d :=
  .inl ⟨rfl, fun _ _ h => absurd h.line.lt_size (Nat.lt_irrefl _)⟩

/-- The walk from the end of a line, with enough fuel, gives the end of the run after it. The
induction is on the fuel; each round reads one line, and the line feed that ends it is where
the next round starts. -/
theorem bodyLines_endsRun :
    ∀ (fuel p d : Nat), (p = bs.size ∨ byteAt bs p = 10) → bs.size - p < fuel →
      EndsRun bs indent p d (bodyLines bs indent fuel p d)
  | 0, _, _, _, hfuel => absurd hfuel (Nat.not_lt_zero _)
  | fuel + 1, p, d, hp, hfuel => by
    unfold bodyLines
    split
    · rename_i hlt
      have hfeed : byteAt bs p = 10 := hp.resolve_left (by omega)
      have hnext : EndsLine bs (p + 1) (lineEnd bs (p + 1)) := lineEnd_endsLine (by omega)
      have hrest : ∀ d', EndsRun bs indent (lineEnd bs (p + 1)) d'
          (bodyLines bs indent fuel (lineEnd bs (p + 1)) d') :=
        fun d' => bodyLines_endsRun fuel _ d' hnext.at_feed (by have := hnext.le; omega)
      dsimp only
      split
      · rename_i hblank
        exact EndsRun.of_blank hfeed hnext ((isBlankLine_iff _).1 hblank) (hrest d)
      · rename_i hblank
        rw [isBlankLine_iff] at hblank
        split
        · rename_i hdeeper
          exact EndsRun.of_deeper hfeed hnext hblank ((isDeeper_iff _ _).1 hdeeper) (hrest _)
        · rename_i hdeeper
          rw [isDeeper_iff] at hdeeper
          exact EndsRun.of_shallow hfeed hnext hblank hdeeper
    · rename_i hge
      rcases hp with rfl | hfeed
      · exact EndsRun.at_end
      · exact absurd (lt_size_of_feed hfeed) hge

/-- The end of a run is its default or the end of a line after it. -/
theorem EndsRun.eq_or_lineAfter (h : EndsRun bs indent p d r) :
    r = d ∨ ∃ s, LineAfter bs p s r := by
  rcases h with ⟨rfl, -⟩ | ⟨s, hs, -⟩
  · exact .inl rfl
  · exact .inr ⟨s, hs.line⟩

/-! ### The end of a body -/

/-- A header whose line shows nothing after its end has its body end at the end of the run
of deeper lines after that line; otherwise the body ends with the line. -/
theorem bodyEnd_eq (hi : i ≤ bs.size) (hfirst : EndsLine bs i e) :
    (¬ BlankLine (slice bs i e) → bodyEnd bs i indent = e) ∧
    (BlankLine (slice bs i e) → EndsRun bs indent e e (bodyEnd bs i indent)) := by
  obtain rfl := (lineEnd_endsLine hi).unique hfirst
  unfold bodyEnd
  dsimp only
  constructor
  · intro hshow
    rw [if_pos (by rwa [Bool.not_eq_true', ← Bool.not_eq_true, isBlankLine_iff])]
  · intro hblank
    rw [if_neg (by rwa [Bool.not_eq_true', Bool.eq_false_iff, not_not, isBlankLine_iff])]
    exact bodyLines_endsRun _ _ _ (lineEnd_endsLine hi).at_feed (by omega)

/-- A body ends with its header's line or with a later line. -/
theorem bodyEnd_eq_or_lineAfter (indent : String) (hi : i ≤ bs.size) (hfirst : EndsLine bs i e) :
    bodyEnd bs i indent = e ∨ ∃ s, LineAfter bs e s (bodyEnd bs i indent) := by
  by_cases hblank : BlankLine (slice bs i e)
  · exact ((bodyEnd_eq hi hfirst).2 hblank).eq_or_lineAfter
  · exact .inl ((bodyEnd_eq hi hfirst).1 hblank)

/-- The end of a Python body. For any text and any header end inside it, the body ends at a
character boundary between the header's end and the end of the text. Where something shows
on the rest of the header's line, the body ends with that line; otherwise it ends with the
last non-blank line of the run of following lines whose non-blank lines all start with the
header's indentation and then a space or a tab, or with the header's line when that run has
no such line. Every line after the header's line starts and ends at a character boundary, so
each cut the walk makes in the text falls between characters. -/
theorem body_ends_after_deeper_lines (v : String) (headerEnd : Nat) (indent : String)
    (hle : headerEnd ≤ v.utf8ByteSize) :
    isBoundary v.toUTF8 (bodyEnd v.toUTF8 headerEnd indent) = true ∧
    headerEnd ≤ bodyEnd v.toUTF8 headerEnd indent ∧
    bodyEnd v.toUTF8 headerEnd indent ≤ v.utf8ByteSize ∧
    ∀ firstEnd, EndsLine v.toUTF8 headerEnd firstEnd →
      isBoundary v.toUTF8 firstEnd = true ∧
      (∀ s e, LineAfter v.toUTF8 firstEnd s e →
        isBoundary v.toUTF8 s = true ∧ isBoundary v.toUTF8 e = true) ∧
      (¬ BlankLine (slice v.toUTF8 headerEnd firstEnd) →
        bodyEnd v.toUTF8 headerEnd indent = firstEnd) ∧
      (BlankLine (slice v.toUTF8 headerEnd firstEnd) →
        EndsRun v.toUTF8 indent firstEnd firstEnd (bodyEnd v.toUTF8 headerEnd indent)) := by
  have hi : headerEnd ≤ v.toUTF8.size := hle
  have hfirst := lineEnd_endsLine hi
  have hlines : ∀ {firstEnd}, EndsLine v.toUTF8 headerEnd firstEnd →
      ∀ s e, LineAfter v.toUTF8 firstEnd s e →
        isBoundary v.toUTF8 s = true ∧ isBoundary v.toUTF8 e = true :=
    fun _ _ _ hl => ⟨hl.isBoundary_start (valid_toUTF8 v), hl.ends.isBoundary⟩
  refine ⟨?_, ?_, ?_, fun firstEnd hf => ⟨hf.isBoundary, hlines hf, bodyEnd_eq hi hf⟩⟩
  all_goals rcases bodyEnd_eq_or_lineAfter indent hi hfirst with hr | ⟨s, hl⟩
  · exact hr ▸ hfirst.isBoundary
  · exact hl.ends.isBoundary
  · exact hr ▸ hfirst.le
  · have := hfirst.le
    have := hl.lt
    have := hl.ends.le
    omega
  · exact hr ▸ hfirst.le_size
  · exact hl.ends.le_size

/-- A header line with nothing after its colon, a line left blank by masking, an empty line, a
deeper line and a line back at the header's indentation: the body ends with the deeper line. -/
example : bodyEnd "def f():\n\x1a\x1a\n\n  g()\nh()\n".toUTF8 8 "" = 18 := by decide +kernel

theorem def_body_ends_after_deeper_lines :
    8 ≤ "def f():\n\x1a\x1a\n\n  g()\nh()\n".utf8ByteSize ∧
    isBoundary "def f():\n\x1a\x1a\n\n  g()\nh()\n".toUTF8
      (bodyEnd "def f():\n\x1a\x1a\n\n  g()\nh()\n".toUTF8 8 "") = true ∧
    8 ≤ bodyEnd "def f():\n\x1a\x1a\n\n  g()\nh()\n".toUTF8 8 "" ∧
    bodyEnd "def f():\n\x1a\x1a\n\n  g()\nh()\n".toUTF8 8 "" ≤
      "def f():\n\x1a\x1a\n\n  g()\nh()\n".utf8ByteSize ∧
    ∀ firstEnd, EndsLine "def f():\n\x1a\x1a\n\n  g()\nh()\n".toUTF8 8 firstEnd →
      isBoundary "def f():\n\x1a\x1a\n\n  g()\nh()\n".toUTF8 firstEnd = true ∧
      (∀ s e, LineAfter "def f():\n\x1a\x1a\n\n  g()\nh()\n".toUTF8 firstEnd s e →
        isBoundary "def f():\n\x1a\x1a\n\n  g()\nh()\n".toUTF8 s = true ∧
        isBoundary "def f():\n\x1a\x1a\n\n  g()\nh()\n".toUTF8 e = true) ∧
      (¬ BlankLine (slice "def f():\n\x1a\x1a\n\n  g()\nh()\n".toUTF8 8 firstEnd) →
        bodyEnd "def f():\n\x1a\x1a\n\n  g()\nh()\n".toUTF8 8 "" = firstEnd) ∧
      (BlankLine (slice "def f():\n\x1a\x1a\n\n  g()\nh()\n".toUTF8 8 firstEnd) →
        EndsRun "def f():\n\x1a\x1a\n\n  g()\nh()\n".toUTF8 "" firstEnd firstEnd
          (bodyEnd "def f():\n\x1a\x1a\n\n  g()\nh()\n".toUTF8 8 "")) :=
  ⟨by decide, body_ends_after_deeper_lines _ 8 "" (by decide)⟩

end Python

end Lineage
