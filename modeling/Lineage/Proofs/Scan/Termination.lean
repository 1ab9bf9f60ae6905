import Lineage.Proofs.Pattern.Reads
import Lineage.Proofs.Overlay.Showing
import Lineage.Java.Scan
import Lineage.Python.Scan
/-!
The scanners stop.

Every loop of the two scanners runs on fuel, and none of them ever runs out of it: past a bound
read off its arguments, more fuel changes nothing (`Java.declarations_fuel`,
`Python.headers_fuel` and their inner loops), so each computes what the loop run without a
bound computes.

The outer loops search the whole view again after each round, so what makes them stop is the
number of characters of the view that show (`Overlay.showing`). Each pattern they search for
reads a character that shows (`Java.readsSome_declaration`, `Scan.readsSome_flatBlock`,
`Python.readsSome_declaration`): every way through the Java declaration pattern ends in a
brace block or a `;`, and the Python header pattern in its colon. A match found in the view
therefore holds such a character, and masking it lowers the count
(`Java.showing_mask_nextDeclaration`, `Java.showing_maskAll_block`,
`Python.showing_mask_header`).

The inner loops search from an offset that moves forward: a search finds nothing past the end
of the view, and a match found at or after an offset lets the loop go on only from the
character after the match's start, or from the match's end when the match cannot be empty.
Peeling brackets (`Overlay.maskRepeatedly`) goes on only after a pass that masked something,
so it stops by the count as the outer loops do.
-/
namespace Lineage

open Pattern Overlay

/-- A fuelled loop whose result no longer changes with one more unit of fuel past a bound
gives the same result with any two amounts of fuel past it. -/
theorem eq_of_succ_eq {α : Sort _} {F : Nat → α} {N : Nat}
    (h : ∀ n, N ≤ n → F (n + 1) = F n) {n m : Nat} (hn : N ≤ n) (hm : N ≤ m) :
    F n = F m := by
  have hconst : ∀ k, N ≤ k → F k = F N := by
    intro k hk
    induction k, hk using Nat.le_induction with
    | base => rfl
    | succ k hk ih => rw [h k hk, ih]
  rw [hconst n hn, hconst m hm]

/-! ### The patterns read a character that shows -/

namespace Scan

theorem identStart_sub : identStart.Sub Shows := by
  refine CharSet.union_sub (CharSet.range_sub fun c h1 h2 => ?_)
    (CharSet.union_sub (CharSet.range_sub fun c h1 h2 => ?_) (CharSet.ofString_sub ?_))
  · exact shows_of_ascii (Nat.lt_of_lt_of_le (by decide) h1) (Nat.lt_of_le_of_lt h2 (by decide))
  · exact shows_of_ascii (Nat.lt_of_lt_of_le (by decide) h1) (Nat.lt_of_le_of_lt h2 (by decide))
  · intro c hc
    rw [show "_".toList = ['_'] from rfl, List.mem_singleton] at hc
    subst hc
    exact shows_of_ascii (by decide) (by decide)

theorem readsSome_identifier : ReadsSome Shows identifier :=
  Or.inl (Or.inl (Or.inr identStart_sub))

/-- A brace block reads its closing brace. -/
theorem readsSome_flatBlock : ReadsSome Shows flatBlock :=
  Or.inr (readsSome_lit (show "\x7d".toList = ['\x7d'] from rfl) (by decide))

end Scan

namespace Java

/-- Every way through a declaration ends in a brace block or, for a method, possibly in `;`. -/
theorem readsSome_declaration : ReadsSome Shows declaration := by
  refine Or.inr (readsSome_alts fun p hp => ?_)
  simp only [List.mem_cons, List.not_mem_nil, or_false] at hp
  rcases hp with rfl | rfl | rfl | rfl
  · exact Or.inr Scan.readsSome_flatBlock
  · exact Or.inr Scan.readsSome_flatBlock
  · exact Or.inr ⟨readsSome_lit (show ";".toList = [';'] from rfl) (by decide),
      Scan.readsSome_flatBlock⟩
  · exact Or.inr Scan.readsSome_flatBlock

/-- A parameter ends in its name. -/
theorem readsSome_parameter : ReadsSome Shows parameter :=
  Or.inr Scan.readsSome_identifier

end Java

namespace Python

/-- A header ends in its colon and the blanks after it. -/
theorem readsSome_declaration : ReadsSome Shows declaration :=
  Or.inl (Or.inr (readsSome_lit (show ":".toList = [':'] from rfl) (by decide)))

/-- Each part a parameter list hides ends in a closing bracket or, for a lambda, a colon. -/
theorem readsSome_paramCensor : ReadsSome Shows paramCensor := by
  refine readsSome_alts fun p hp => ?_
  simp only [List.mem_cons, List.not_mem_nil, or_false] at hp
  rcases hp with rfl | rfl | rfl | rfl
  · exact Or.inr (readsSome_lit (show "\x7d".toList = ['\x7d'] from rfl) (by decide))
  · exact Or.inr (readsSome_lit (show ")".toList = [')'] from rfl) (by decide))
  · exact Or.inr (readsSome_lit (show "]".toList = [']'] from rfl) (by decide))
  · exact Or.inr (readsSome_lit (show ":".toList = [':'] from rfl) (by decide))

end Python

/-! ### Searches move forward -/

namespace Overlay

variable {t : Overlay} {pos : Nat} {m : Match}

theorem findAt_of_lt (prog : Program) (h : t.size < pos) : t.findAt prog pos = none := by
  rw [findAt, if_pos (by rw [t.size_view]; exact h)]

/-- A match found from `pos` is one of the pattern, and starts there or later. -/
theorem findAt_sound {p : Pattern} (h : t.findAt p.compile pos = some m) :
    pos ≤ m.start ∧ Matches t.view p m.start m.stop := by
  unfold findAt at h
  split at h
  · cases h
  · exact Program.searchAt_sound h

theorem lt_nextChar (t : Overlay) (pos : Nat) : pos < t.nextChar pos := by
  unfold nextChar
  split
  · exact Nat.lt_add_of_pos_right (Utf8.width_decodeAt_pos _ _)
  · exact Nat.lt_succ_self pos

/-- A search that goes on from the character after the start of a match found from `pos`
moves past `pos`. -/
theorem lt_nextChar_of_findAt {p : Pattern} (h : t.findAt p.compile pos = some m) :
    pos < t.nextChar m.start :=
  Nat.lt_of_le_of_lt (findAt_sound h).1 (lt_nextChar t m.start)

theorem findAll_showsIn {p : Pattern} (hp : ReadsSome Shows p) :
    ∀ m ∈ t.findAll p.compile, t.ShowsIn m.start m.stop :=
  fun _ hm => (Program.mem_findAll_matches hm).readsSome hp

end Overlay

/-! ### The Java scanner -/

namespace Java

variable {t : Overlay} {m : Match}

theorem bodilessFrom_found {ty : Match} :
    ∀ {fuel pos : Nat}, bodilessFrom t ty fuel pos = some m →
      ∃ p, t.findAt declarationProgram p = some m
  | 0, _, h => by simp [bodilessFrom] at h
  | fuel + 1, pos, h => by
    unfold bodilessFrom at h
    split at h
    · cases h
    · rename_i inner hinner
      split_ifs at h
      · exact ⟨pos, (Option.some.inj h) ▸ hinner⟩
      · exact bodilessFrom_found h

theorem nextDeclarationFrom_found :
    ∀ {fuel pos : Nat}, nextDeclarationFrom t fuel pos = some m →
      ∃ p, t.findAt declarationProgram p = some m
  | 0, _, h => by simp [nextDeclarationFrom] at h
  | fuel + 1, pos, h => by
    unfold nextDeclarationFrom at h
    split at h
    · cases h
    · rename_i found hfound
      split at h
      · split at h
        · -- a bodiless member inside a type is itself a match of the pattern
          split at h
          · rename_i inner hbody
            obtain rfl := Option.some.inj h
            unfold bodilessMember at hbody
            split at hbody
            · exact bodilessFrom_found hbody
            · cases hbody
          · exact ⟨pos, (Option.some.inj h) ▸ hfound⟩
        · exact ⟨pos, (Option.some.inj h) ▸ hfound⟩
      · exact nextDeclarationFrom_found h

/-- A round that records a declaration lowers the count: it masks the declaration's match. -/
theorem showing_mask_nextDeclaration (h : nextDeclaration t = some m) :
    (t.mask m.start m.stop).showing < t.showing := by
  obtain ⟨p, hp⟩ := nextDeclarationFrom_found h
  exact showing_mask_lt ((findAt_sound (p := declaration) hp).2.readsSome readsSome_declaration)

/-- A round that finds no declaration and masks blocks lowers the count. -/
theorem showing_maskAll_block (h : (t.maskAll blockProgram).2 = true) :
    (t.maskAll blockProgram).1.showing < t.showing :=
  showing_maskAll_lt (findAll_showsIn (p := Scan.flatBlock) Scan.readsSome_flatBlock) h

theorem declarations_succ : ∀ (n : Nat) (t : Overlay) (st : FileScan), t.showing < n →
    declarations (n + 1) t st = declarations n t st
  | 0, _, _, h => absurd h (Nat.not_lt_zero _)
  | n + 1, t, st, h => by
    rw [declarations.eq_def, declarations.eq_def]
    dsimp only
    cases hm : nextDeclaration t with
    | some m =>
      have hlt := showing_mask_nextDeclaration hm
      have hrest : ∀ st', declarations (n + 1) (t.mask m.start m.stop) st' =
          declarations n (t.mask m.start m.stop) st' :=
        fun st' => declarations_succ n _ st' (by omega)
      simp only [hrest]
    | none =>
      rcases hmask : t.maskAll blockProgram with ⟨t', changed⟩
      dsimp only
      cases changed with
      | false => rw [if_neg Bool.false_ne_true, if_neg Bool.false_ne_true]
      | true =>
        have hlt := showing_maskAll_block (t := t) (by rw [hmask])
        rw [hmask] at hlt
        dsimp only at hlt
        rw [if_pos rfl, if_pos rfl]
        exact declarations_succ n t' st (by omega)

/-- The declaration loop stops within as many rounds as characters show: any fuel past that
count gives what the scan's fuel gives. -/
theorem declarations_fuel (t : Overlay) (st : FileScan) {n : Nat} (hn : t.showing < n) :
    declarations n t st = declarations (t.size + 1) t st :=
  eq_of_succ_eq (F := fun n => declarations n t st) (N := t.showing + 1)
    (fun k hk => declarations_succ k t st (by omega)) hn
    (by have := t.showing_le_size; omega)

theorem nextDeclarationFrom_succ (t : Overlay) : ∀ (n pos : Nat), t.size + 1 < pos + n →
    nextDeclarationFrom t (n + 1) pos = nextDeclarationFrom t n pos
  | 0, pos, h => by
    simp only [nextDeclarationFrom, findAt_of_lt _ (show t.size < pos by omega)]
  | n + 1, pos, h => by
    rw [nextDeclarationFrom, nextDeclarationFrom]
    cases hm : t.findAt declarationProgram pos with
    | none => rfl
    | some m =>
      -- a rejected match lets the search go on from the character after its start
      have hadv := lt_nextChar_of_findAt (p := declaration) hm
      dsimp only
      rw [nextDeclarationFrom_succ t n _ (by omega)]

theorem bodilessFrom_succ (t : Overlay) (ty : Match) : ∀ (n pos : Nat), t.size + 1 < pos + n →
    bodilessFrom t ty (n + 1) pos = bodilessFrom t ty n pos
  | 0, pos, h => by
    simp only [bodilessFrom, findAt_of_lt _ (show t.size < pos by omega)]
  | n + 1, pos, h => by
    rw [bodilessFrom, bodilessFrom]
    cases hm : t.findAt declarationProgram pos with
    | none => rfl
    | some inner =>
      have hadv := lt_nextChar_of_findAt (p := declaration) hm
      dsimp only
      rw [bodilessFrom_succ t ty n _ (by omega)]

theorem paramsFrom_succ (sub : Overlay) (base : Nat) : ∀ (n pos : Nat), sub.size + 1 < pos + n →
    paramsFrom sub base (n + 1) pos = paramsFrom sub base n pos
  | 0, pos, h => by
    simp only [paramsFrom, findAt_of_lt _ (show sub.size < pos by omega)]
  | n + 1, pos, h => by
    rw [paramsFrom, paramsFrom]
    cases hm : sub.findAt parameterProgram pos with
    | none => rfl
    | some p =>
      -- a parameter is never empty, so both ways on move past `pos`
      obtain ⟨hstart, hmatch⟩ := findAt_sound (p := parameter) hm
      have hstop := ShowsIn.lt (hmatch.readsSome readsSome_parameter : sub.ShowsIn p.start p.stop)
      have hadv := lt_nextChar_of_findAt (p := parameter) hm
      dsimp only
      rw [paramsFrom_succ sub base n _ (by omega), paramsFrom_succ sub base n _ (by omega)]

/-- The search for a declaration moves forward, so from `pos` it looks at most at every offset
up to the end: any fuel past that gives what the scanner's fuel gives. -/
theorem nextDeclarationFrom_fuel (t : Overlay) (pos : Nat) {n : Nat} (hn : t.size + 1 < pos + n) :
    nextDeclarationFrom t n pos = nextDeclarationFrom t (t.size + 2) pos :=
  eq_of_succ_eq (F := fun n => nextDeclarationFrom t n pos) (N := t.size + 2 - pos)
    (fun k hk => nextDeclarationFrom_succ t k pos (by omega)) (by omega) (by omega)

theorem bodilessFrom_fuel (t : Overlay) (ty : Match) (pos : Nat) {n : Nat}
    (hn : t.size + 1 < pos + n) :
    bodilessFrom t ty n pos = bodilessFrom t ty (t.size + 2) pos :=
  eq_of_succ_eq (F := fun n => bodilessFrom t ty n pos) (N := t.size + 2 - pos)
    (fun k hk => bodilessFrom_succ t ty k pos (by omega)) (by omega) (by omega)

theorem paramsFrom_fuel (sub : Overlay) (base pos : Nat) {n : Nat}
    (hn : sub.size + 1 < pos + n) :
    paramsFrom sub base n pos = paramsFrom sub base (sub.size + 2) pos :=
  eq_of_succ_eq (F := fun n => paramsFrom sub base n pos) (N := sub.size + 2 - pos)
    (fun k hk => paramsFrom_succ sub base k pos (by omega)) (by omega) (by omega)

end Java

/-! ### The Python scanner -/

namespace Python

variable {t : Overlay} {m : Match}

/-- A round that records a header lowers the count: it masks the header's match. -/
theorem showing_mask_header (h : t.find declarationProgram = some m) :
    (t.mask m.start m.stop).showing < t.showing :=
  showing_mask_lt ((findAt_sound (p := declaration) h).2.readsSome readsSome_declaration)

theorem headers_succ : ∀ (n : Nat) (t : Overlay) (st : ModuleScan), t.showing < n →
    headers (n + 1) t st = headers n t st
  | 0, _, _, h => absurd h (Nat.not_lt_zero _)
  | n + 1, t, st, h => by
    rw [headers, headers]
    cases hm : t.find declarationProgram with
    | none => rfl
    | some m =>
      have hlt := showing_mask_header hm
      have hrest : ∀ st', headers (n + 1) (t.mask m.start m.stop) st' =
          headers n (t.mask m.start m.stop) st' :=
        fun st' => headers_succ n _ st' (by omega)
      simp only [Header.ofMatch, hrest]

/-- The header loop stops within as many rounds as characters show: any fuel past that count
gives what the scan's fuel gives. -/
theorem headers_fuel (t : Overlay) (st : ModuleScan) {n : Nat} (hn : t.showing < n) :
    headers n t st = headers (t.size + 1) t st :=
  eq_of_succ_eq (F := fun n => headers n t st) (N := t.showing + 1)
    (fun k hk => headers_succ k t st (by omega)) hn
    (by have := t.showing_le_size; omega)

theorem le_lineEnd_go (bs : ByteArray) :
    ∀ (fuel j : Nat), j ≤ bs.size → j ≤ lineEnd.go bs fuel j
  | 0, j, _ => Nat.le_refl j
  | fuel + 1, j, hj => by
    rw [lineEnd.go]
    split
    · omega
    · rename_i hgo
      simp only [Bool.or_eq_true, decide_eq_true_eq, not_or] at hgo
      exact Nat.le_trans (Nat.le_succ j) (le_lineEnd_go bs fuel (j + 1) (by omega))

theorem lineEnd_go_succ (bs : ByteArray) : ∀ (n j : Nat), bs.size - j < n →
    lineEnd.go bs (n + 1) j = lineEnd.go bs n j
  | 0, _, h => absurd h (Nat.not_lt_zero _)
  | n + 1, j, h => by
    conv_lhs => rw [lineEnd.go]
    conv_rhs => rw [lineEnd.go]
    by_cases hgo : (bs.size ≤ j || Utf8.byteAt bs j == 10) = true
    · rw [if_pos hgo, if_pos hgo]
    · rw [if_neg hgo, if_neg hgo]
      simp only [Bool.or_eq_true, decide_eq_true_eq, not_or] at hgo
      exact lineEnd_go_succ bs n (j + 1) (by omega)

theorem bodyLines_succ (bs : ByteArray) (indent : String) : ∀ (n pos stop : Nat),
    bs.size - pos < n → bodyLines bs indent (n + 1) pos stop = bodyLines bs indent n pos stop
  | 0, _, _, h => absurd h (Nat.not_lt_zero _)
  | n + 1, pos, stop, h => by
    rw [bodyLines, bodyLines]
    by_cases hpos : pos < bs.size
    · -- the next line ends after this one
      have hnext : pos + 1 ≤ lineEnd bs (pos + 1) := le_lineEnd_go bs _ _ (by omega)
      rw [if_pos hpos, if_pos hpos]
      dsimp only
      rw [bodyLines_succ bs indent n _ stop (by omega),
        bodyLines_succ bs indent n _ (lineEnd bs (pos + 1)) (by omega)]
    · rw [if_neg hpos, if_neg hpos]

theorem lineEnd_go_fuel (bs : ByteArray) {n i : Nat} (hn : bs.size - i < n) :
    lineEnd.go bs n i = lineEnd bs i :=
  eq_of_succ_eq (F := fun n => lineEnd.go bs n i) (N := bs.size - i + 1)
    (fun k hk => lineEnd_go_succ bs k i (by omega)) hn (Nat.le_refl _)

/-- The walk over a body's lines moves forward a line at a time. -/
theorem bodyLines_fuel (bs : ByteArray) (indent : String) {n pos stop : Nat}
    (hn : bs.size - pos < n) :
    bodyLines bs indent n pos stop = bodyLines bs indent (bs.size + 1) pos stop :=
  eq_of_succ_eq (F := fun n => bodyLines bs indent n pos stop) (N := bs.size - pos + 1)
    (fun k hk => bodyLines_succ bs indent k pos stop (by omega)) hn (by omega)

end Python

/-! ### Peeling brackets -/

namespace Overlay

/-- Peeling goes on only after a pass that masked something, so it stops by the count. -/
theorem maskRepeatedly_go_succ {p : Pattern} (hp : ReadsSome Shows p) :
    ∀ (n : Nat) (t : Overlay), t.showing < n →
      maskRepeatedly.go p.compile (n + 1) t = maskRepeatedly.go p.compile n t
  | 0, _, h => absurd h (Nat.not_lt_zero _)
  | n + 1, t, h => by
    rw [maskRepeatedly.go, maskRepeatedly.go]
    rcases hm : t.maskAll p.compile with ⟨t', changed⟩
    dsimp only
    by_cases hgo :
        (changed && (t'.findAll p.compile).any fun m => t'.hasUnmasked m.start m.stop) = true
    · rw [if_pos hgo, if_pos hgo]
      have hch : changed = true := (Bool.and_eq_true _ _ ▸ hgo).1
      have hlt := showing_maskAll_lt (findAll_showsIn hp) (t := t) (by rw [hm]; exact hch)
      rw [hm] at hlt
      dsimp only at hlt
      exact maskRepeatedly_go_succ hp n t' (by omega)
    · rw [if_neg hgo, if_neg hgo]

theorem maskRepeatedly_go_fuel {p : Pattern} (hp : ReadsSome Shows p) (t : Overlay) {n : Nat}
    (hn : t.showing < n) : maskRepeatedly.go p.compile n t = t.maskRepeatedly p.compile :=
  eq_of_succ_eq (F := fun n => maskRepeatedly.go p.compile n t) (N := t.showing + 1)
    (fun k hk => maskRepeatedly_go_succ hp k t (by omega)) hn
    (by have := t.showing_le_size; omega)

end Overlay

/-- The scanners stop on every text. Each round of the Java declaration loop masks the match of
a declaration or a run of brace blocks, and each round of the Python header loop masks a header;
each lowers the number of characters of the view that show. So neither loop, nor any loop they
run, ever runs out of the fuel it is given: with more fuel each computes the same, which is what
the loop computes when nothing bounds it. Widening a range stops inside the text. -/
theorem scanning_terminates :
    (∀ (t : Overlay) (m : Match), Java.nextDeclaration t = some m →
      (t.mask m.start m.stop).showing < t.showing) ∧
    (∀ t : Overlay, (t.maskAll Java.blockProgram).2 = true →
      (t.maskAll Java.blockProgram).1.showing < t.showing) ∧
    (∀ (t : Overlay) (m : Match), t.find Python.declarationProgram = some m →
      (t.mask m.start m.stop).showing < t.showing) ∧
    (∀ (t : Overlay) (st : Java.FileScan) (n : Nat), t.showing < n →
      Java.declarations n t st = Java.declarations (t.size + 1) t st) ∧
    (∀ (t : Overlay) (st : Python.ModuleScan) (n : Nat), t.showing < n →
      Python.headers n t st = Python.headers (t.size + 1) t st) ∧
    (∀ (t : Overlay) (n : Nat), t.size + 1 < n →
      Java.nextDeclarationFrom t n 0 = Java.nextDeclaration t) ∧
    (∀ (t : Overlay) (ty : Match) (n pos : Nat), t.size + 1 < pos + n →
      Java.bodilessFrom t ty n pos = Java.bodilessFrom t ty (t.size + 2) pos) ∧
    (∀ (sub : Overlay) (base n : Nat), sub.size + 1 < n →
      Java.paramsFrom sub base n 0 = Java.paramsFrom sub base (sub.size + 2) 0) ∧
    (∀ (bs : ByteArray) (i n : Nat), bs.size - i < n →
      Python.lineEnd.go bs n i = Python.lineEnd bs i) ∧
    (∀ (bs : ByteArray) (indent : String) (pos stop n : Nat), bs.size - pos < n →
      Python.bodyLines bs indent n pos stop = Python.bodyLines bs indent (bs.size + 1) pos stop) ∧
    (∀ (t : Overlay) (n : Nat), t.showing < n →
      Overlay.maskRepeatedly.go Python.censorProgram n t =
        t.maskRepeatedly Python.censorProgram) ∧
    (∀ (t : Overlay) (start stop : Nat),
      (t.widen start stop).1 ≤ (t.widen start stop).2 ∧ (t.widen start stop).2 ≤ t.size) :=
  ⟨fun _ _ h => Java.showing_mask_nextDeclaration h,
    fun _ h => Java.showing_maskAll_block h,
    fun _ _ h => Python.showing_mask_header h,
    fun t st _ h => Java.declarations_fuel t st h,
    fun t st _ h => Python.headers_fuel t st h,
    fun t _ h => Java.nextDeclarationFrom_fuel t 0 (by omega),
    fun t ty _ pos h => Java.bodilessFrom_fuel t ty pos h,
    fun sub base _ h => Java.paramsFrom_fuel sub base 0 (by omega),
    fun bs _ _ h => Python.lineEnd_go_fuel bs h,
    fun bs indent _ _ _ h => Python.bodyLines_fuel bs indent h,
    fun t _ h => maskRepeatedly_go_fuel Python.readsSome_paramCensor t h,
    fun t start stop => ⟨(widen_spec t start stop).1, (widen_spec t start stop).2.1⟩⟩

end Lineage
