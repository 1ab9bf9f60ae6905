import Lineage.Proofs.Overlay.Source
import Lineage.Proofs.Scan.Termination
import Lineage.Proofs.Scan.Java
/-!
Where a recorded declaration lies.

The Java scanner records a declaration at the span from the first character of its match
that is no blank up to the end of the match. In the view it searched, both ends of that span
show (`Java.SpanShows`):

* the declaration pattern must lead with a character that shows (`Java.mustLead_declaration`):
  after any modifiers, which are annotations and keywords, each of its four forms begins with
  a keyword, a name or a `<`, possibly after blanks;
* it ends with `}` or `;` (`Java.endsWith_declaration`);
* the span's start, read off the source by trimming the leading blanks of the match, is the
  offset of that leading character: the view differs from its source by masks only, so both
  read the same blanks and the same character (`Overlay.OnlyMasked.leading_sourceSlice`).

This is what keeps declarations found later apart from those found before, whose spans no
longer show anything.
-/
namespace Lineage

open Pattern Overlay

/-! ### Patterns of printable ASCII characters -/

theorem mayLead_lit_ascii {s : String} (h : ∀ c ∈ s.toList, 0x20 < c.toNat ∧ c.toNat < 0x80) :
    MayLead Shows (lit s) :=
  mayLead_lit fun c hc => shows_of_ascii (h c hc).1 (h c hc).2

/-- Words of printable ASCII characters lead with their first one. -/
theorem mustLead_words {ws : List String}
    (h : ∀ w ∈ ws, w.toList ≠ [] ∧ ∀ c ∈ w.toList, 0x20 < c.toNat ∧ c.toNat < 0x80) :
    MustLead Shows (words ws) := by
  refine mustLead_alts fun p hp => ?_
  obtain ⟨w, hw, rfl⟩ := List.mem_map.1 hp
  obtain ⟨hne, hascii⟩ := h w hw
  obtain ⟨c, cs, hcs⟩ := List.exists_cons_of_ne_nil hne
  have hc := hascii c (hcs ▸ List.mem_cons_self)
  exact mustLead_lit hcs (shows_of_ascii hc.1 hc.2)

theorem mayLead_words {ws : List String}
    (h : ∀ w ∈ ws, ∀ c ∈ w.toList, 0x20 < c.toNat ∧ c.toNat < 0x80) :
    MayLead Shows (words ws) :=
  mayLead_alts fun p hp => by
    obtain ⟨w, hw, rfl⟩ := List.mem_map.1 hp
    exact mayLead_lit_ascii (h w hw)

namespace Scan

theorem identRest_sub : identRest.Sub Shows :=
  CharSet.union_sub identStart_sub (CharSet.range_sub fun _ h1 h2 =>
    shows_of_ascii (Nat.lt_of_lt_of_le (by decide) h1) (Nat.lt_of_le_of_lt h2 (by decide)))

theorem mayLead_blanks {P : Char → Prop} : MayLead P blanks :=
  CharSet.blank_sub.mono fun _ h => .inl h

theorem mustLead_identifier : MustLead Shows identifier :=
  .inl (.inl (.inr ⟨trivial, identStart_sub⟩))

theorem mayLead_identifier : MayLead Shows identifier :=
  ⟨⟨⟨trivial, identStart_sub.mono fun _ h => .inr h⟩, identRest_sub.mono fun _ h => .inr h⟩,
    trivial⟩

theorem endsWith_flatBlock : EndsWith (fun c => c = '\x7d' ∨ c = ';') flatBlock :=
  endsWith_lit (show "\x7d".toList = ['\x7d'] from rfl) (.inl rfl)

end Scan

namespace Java

open Scan

/-! ### The declaration pattern leads with a character that shows -/

theorem mayLead_fqName : MayLead Shows fqName :=
  ⟨mayLead_identifier, ⟨⟨mayLead_blanks, mayLead_lit_ascii (by simp)⟩, mayLead_blanks⟩,
    mayLead_identifier⟩

theorem mayLead_annotationItem : MayLead Shows annotationItem :=
  ⟨⟨⟨⟨mayLead_lit_ascii (by simp), mayLead_blanks⟩, mayLead_fqName⟩,
    ⟨⟨mayLead_blanks, shows_of_ascii (by decide) (by decide)⟩, trivial⟩⟩, mayLead_blanks⟩

/-- Modifiers read nothing but annotations and keywords, each of which shows. -/
theorem mayLead_modifiers : MayLead Shows modifiers :=
  ⟨mayLead_annotationItem, ⟨⟨trivial, mayLead_words (by simp)⟩, trivial⟩, mayLead_blanks⟩

theorem mustLead_typeUse : MustLead Shows typeUse := .inl (.inl (.inl mustLead_identifier))

/-- A named type leads with its keyword. -/
theorem mustLead_namedType : MustLead Shows namedType := by
  -- down the sequence to the word boundary and the keyword
  iterate 10 refine Or.inl ?_
  exact Or.inr ⟨trivial, mustLead_words (by simp)⟩

/-- An anonymous class leads with `new`. -/
theorem mustLead_anonymousClass : MustLead Shows anonymousClass := by
  iterate 9 refine Or.inl ?_
  exact Or.inr ⟨trivial, mustLead_lit (show "new".toList = ['n', 'e', 'w'] from rfl)
    (shows_of_ascii (by decide) (by decide))⟩

/-- A method leads with its type parameters or, after blanks, its return type. -/
theorem mustLead_method : MustLead Shows method := by
  iterate 9 refine Or.inl ?_
  exact Or.inr ⟨⟨⟨shows_of_ascii (by decide) (by decide), trivial⟩, mayLead_blanks⟩,
    mustLead_typeUse⟩

/-- A constructor leads with its type parameters or, after blanks, its name. -/
theorem mustLead_constructor : MustLead Shows constructor := by
  iterate 7 refine Or.inl ?_
  exact Or.inr ⟨⟨⟨shows_of_ascii (by decide) (by decide), trivial⟩, mayLead_blanks⟩,
    mustLead_identifier⟩

theorem mustLead_declaration : MustLead Shows declaration := by
  refine Or.inr ⟨mayLead_modifiers, mustLead_alts fun p hp => ?_⟩
  simp only [List.mem_cons, List.not_mem_nil, or_false] at hp
  rcases hp with rfl | rfl | rfl | rfl
  exacts [mustLead_namedType, mustLead_anonymousClass, mustLead_method, mustLead_constructor]

/-- Every form of declaration ends with its brace block or, for a method, possibly `;`. -/
theorem endsWith_declaration : EndsWith (fun c => c = '\x7d' ∨ c = ';') declaration := by
  refine endsWith_alts fun p hp => ?_
  simp only [List.mem_cons, List.not_mem_nil, or_false] at hp
  rcases hp with rfl | rfl | rfl | rfl
  · exact endsWith_flatBlock
  · exact endsWith_flatBlock
  · exact ⟨endsWith_lit (show ";".toList = [';'] from rfl) (.inr rfl), endsWith_flatBlock⟩
  · exact endsWith_flatBlock

/-! ### The span of a declaration found -/

/-- A declaration's span starts after the blanks its match starts with. -/
theorem span_ofMatch_start (t : Overlay) (m : Match) :
    (Decl.ofMatch t m).span.start = m.start +
      ((t.matchSource m).utf8ByteSize - (Text.trimStart (t.matchSource m)).utf8ByteSize) := by
  simp [Decl.ofMatch]

/-- A span of the view that starts and ends with characters that show, inside the match `m`
of a text of `t.size` bytes. -/
structure SpanShows (t : Overlay) (m : Match) (s : Span) : Prop where
  first : t.showsAt s.start = true
  last : t.showsAt (s.stop - 1) = true
  lt : s.start < s.stop
  start_le : m.start ≤ s.start
  stop_eq : s.stop = m.stop
  stop_le : m.stop ≤ t.size

/-- The declaration found in a view that differs from its source by masks only lies at a span
that starts with a character that shows and ends with a `}` or a `;`. -/
theorem nextDeclaration_spanShows {t : Overlay} (h : t.OnlyMasked) {m : Match}
    (hm : nextDeclaration t = some m) : SpanShows t m (Decl.ofMatch t m).span := by
  obtain ⟨p, hp⟩ := nextDeclarationFrom_found hm
  have hmatch := (findAt_sound (p := declaration) hp).2
  have hstop : m.stop ≤ t.size := (nextDeclaration_inside hm).stop_le
  obtain ⟨k, c, w, hrun, hk, hc, hkw⟩ := hmatch.mustLead mustLead_declaration
  obtain ⟨e, d, u, he, hd, heu⟩ := hmatch.endsWith endsWith_declaration
  have hle := hrun.le
  have hw := Utf8.charAt?_width_pos hk
  have hstart : (Decl.ofMatch t m).span.start = k := by
    rw [span_ofMatch_start, Overlay.matchSource, h.leading_sourceSlice hrun hk hc hkw hstop]
    omega
  -- the closing character takes one byte
  have hu : u = 1 := by
    rw [← Utf8.decodeAt_char_utf8Size (Utf8.charAt?_eq_some_iff.1 he).2]
    rcases hd with rfl | rfl <;> rfl
  refine ⟨?_, ?_, ?_, ?_, span_ofMatch_stop t m, hstop⟩
  · rw [hstart]
    exact showsAt_iff.2 ⟨c, w, hk, hc⟩
  · rw [span_ofMatch_stop, show m.stop - 1 = e by omega]
    refine showsAt_iff.2 ⟨d, u, he, ?_⟩
    rcases hd with rfl | rfl <;> exact shows_of_ascii (by decide) (by decide)
  · rw [hstart, span_ofMatch_stop]
    omega
  · rw [hstart]
    exact hle

end Java

end Lineage
