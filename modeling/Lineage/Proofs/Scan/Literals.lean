import Lineage.Proofs.Scan.Concealed
import Lineage.Proofs.Scan.Widening
import Lineage.Proofs.Pattern.Groups
import Lineage.Proofs.Scan.Python
/-!
Names are never read from comments or literals.

Each scanner masks every comment and string literal in a first pass, and reads every name and
every import from views that only mask more. The regions the first pass matches
(`Overlay.passRegions`) stay concealed in all those views (`Overlay.Conceals`), and a name
reads an unmasked, printable character first, so it lies outside every region
(`Overlay.Conceals.clear`).

* `Java.takenMatches` and `Python.takenHeaders` list the views each declaration loop reads and
  the match it takes in each; the declarations a scan records are read from these matches, in
  order (`Java.recorded_eq_map_takenMatches`, `Python.headers_taken`, `Python.headers_run`).
* `Java.nameToken` is where the name of a Java declaration stands: the group its name is read
  from (`Java.Decl.name_ofMatch`), or the keyword `new` of an anonymous class.
* `Java.scan_stores_takenMatches`, `Python.scan_stores_takenHeaders`: a scan stores what it
  reads from these matches as its new symbols, in order, each at the span read from its match
  and under the text at its name token (for Python, its name group); an anonymous class is
  named by its place instead.
* `scanned_names_outside_literals`: no name token of a recorded declaration overlaps a region
  of the first pass, and no text that an import is read from does.
-/
namespace Lineage

open Pattern Scan

/-- An entry of a list with one more at the end is an entry of the list, or the new one. -/
theorem getElem?_concat_eq_some {α : Type} {l : List α} {a b : α} {k : Nat}
    (h : (l ++ [a])[k]? = some b) : (k < l.length ∧ l[k]? = some b) ∨ (k = l.length ∧ b = a) := by
  rw [List.getElem?_append] at h
  split at h
  · exact .inl ⟨by assumption, h⟩
  · obtain ⟨hk, hb⟩ := List.getElem?_eq_some_iff.1 h
    simp only [List.length_singleton, List.getElem_singleton] at hk hb
    exact .inr ⟨by omega, hb.symm⟩

namespace Overlay

/-- Where the matches of a pass over a text start and stop. -/
def passRegions (prog : Program) (content : String) : List (Nat × Nat) :=
  ((ofString content).findAll prog).map fun m => (m.start, m.stop)

/-- The offsets from `a` to `b` lie in none of the regions. -/
def Clear (regions : List (Nat × Nat)) (a b : Nat) : Prop :=
  ∀ r ∈ regions, ∀ q, a ≤ q → q < b → ¬ (r.1 ≤ q ∧ q < r.2)

/-- Each nonempty region is concealed in `t`. -/
def Conceals (regions : List (Nat × Nat)) (t : Overlay) : Prop :=
  ∀ r ∈ regions, r.1 < r.2 → t.Concealed r.1 r.2

variable {R : List (Nat × Nat)} {t : Overlay}

theorem Conceals.mask (h : Conceals R t) (start stop : Nat) : Conceals R (t.mask start stop) :=
  fun r hr hlt => (h r hr hlt).mask start stop

theorem Conceals.maskAll (h : Conceals R t) (prog : Program) : Conceals R (t.maskAll prog).1 :=
  fun r hr hlt => (h r hr hlt).maskAll prog

theorem Conceals.maskAllWith_continuation (hf : t.Faithful) (h : Conceals R t) :
    Conceals R (t.maskAllWith Python.continuationProgram ' ').1 :=
  fun r hr hlt => (h r hr hlt).maskAllWith_continuation hf

/-- The first pass conceals the regions it matches. -/
theorem conceals_passRegions {p : Pattern} (hp : StartsWith Printable p) (content : String) :
    Conceals (passRegions p.compile content) ((ofString content).maskAll p.compile).1 := by
  intro r hr hlt
  obtain ⟨m, hm, rfl⟩ := List.mem_map.1 hr
  exact concealed_maskAll hp content hm hlt

/-- A legible stretch of a view that conceals the regions lies outside all of them. -/
theorem Conceals.clear (h : Conceals R t) {i j : Nat} (hl : t.Legible i j) : Clear R i j := by
  intro r hr q h₁ h₂ hq
  exact (h r hr (by omega)).apart hl q h₁ h₂ hq

/-- A group with one body that reads legibly, read in a view that conceals the regions, lies
outside them. -/
theorem Conceals.clear_of_body (h : Conceals R t) {p q : Pattern} {g : String}
    (hbodies : p.groupBodies g = [q]) (hq : q.ReadsLegibly) {a b : Nat}
    (hread : ∃ r ∈ p.groupBodies g, Matches t.view r a b) : Clear R a b := by
  obtain ⟨r, hr, hmatch⟩ := hread
  rw [hbodies, List.mem_singleton] at hr
  subst hr
  exact h.clear (legible_of_matches hq hmatch)

/-- A group a search reads, whose one body holds no group of its name and reads legibly, lies
outside the regions the view conceals. -/
theorem Conceals.clear_of_searchAt (h : Conceals R t) {p q : Pattern} {g : String}
    (hbodies : p.groupBodies g = [q]) (hinner : q.groupBodies g = []) (hq : q.ReadsLegibly)
    {pos : Nat} {m : Match} (hm : p.compile.searchAt t.view pos = some m) {a b : Nat}
    (hab : m.group? g = some (a, b)) : Clear R a b :=
  h.clear_of_body hbodies hq (Program.searchAt_group (groupsApart_single hbodies hinner) hm hab)

theorem Conceals.clear_of_mem_findAll (h : Conceals R t) {p q : Pattern} {g : String}
    (hbodies : p.groupBodies g = [q]) (hinner : q.groupBodies g = []) (hq : q.ReadsLegibly)
    {m : Match} (hm : m ∈ t.findAll p.compile) {a b : Nat} (hab : m.group? g = some (a, b)) :
    Clear R a b :=
  h.clear_of_body hbodies hq (Program.mem_findAll_group (groupsApart_single hbodies hinner) hm hab)

end Overlay

open Overlay

/-! ### Patterns that read names -/

theorem Scan.identStart_printable : identStart.Sub Printable := by
  refine CharSet.union_sub (CharSet.range_sub fun c h1 h2 => ?_)
    (CharSet.union_sub (CharSet.range_sub fun c h1 h2 => ?_) (CharSet.ofString_sub ?_))
  · exact ⟨Nat.lt_of_lt_of_le (by decide) h1, Nat.lt_of_le_of_lt h2 (by decide)⟩
  · exact ⟨Nat.lt_of_lt_of_le (by decide) h1, Nat.lt_of_le_of_lt h2 (by decide)⟩
  · intro c hc
    rw [show "_".toList = ['_'] from rfl, List.mem_singleton] at hc
    subst hc
    exact ⟨by decide, by decide⟩

/-- An identifier reads letters, digits and underscores, a letter or underscore first. -/
theorem Scan.readsLegibly_identifier : identifier.ReadsLegibly where
  unmasked :=
    ⟨⟨⟨trivial, identStart_sub.mono fun _ h => h.1⟩, identRest_sub.mono fun _ h => h.1⟩, trivial⟩
  printable :=
    have hopen : OpensWith (wordBoundary ++ chars identStart) identifier := .seq _ (.seq _ .refl)
    have hstart : StartsWith Printable (wordBoundary ++ chars identStart) :=
      ⟨trivial, .inr identStart_printable⟩
    hopen.startsWith hstart (.inr fun _ _ _ _ _ => trivial)

theorem readsSome_identifier_true : ReadsSome (fun _ => True) identifier :=
  .inl (.inl (.inr fun _ _ _ _ _ => trivial))

/-- No character of the text is the mask character, checked character by character. -/
theorem ne_mask_of_all {s : String} (h : (s.toList.all fun c => c != Char.ofNat 0x1a) = true) :
    ∀ c ∈ s.toList, c ≠ Char.ofNat 0x1a := fun c hc =>
  bne_iff_ne.1 (List.all_eq_true.1 h c hc)

theorem blank_ne_mask : CharSet.blank.Sub (· ≠ Char.ofNat 0x1a) :=
  CharSet.blank_sub.mono fun c h hc => by
    subst hc
    exact absurd h (by decide)

/-- A dotted name, with the blanks `sep` around its dots, starts with an identifier and reads
no mask character. -/
theorem readsLegibly_dotted {sep : Pattern} (hsep : ReadsOnly (· ≠ Char.ofNat 0x1a) sep) :
    (identifier ++ many (sep ++ lit "." ++ sep ++ identifier)).ReadsLegibly where
  unmasked := ⟨readsLegibly_identifier.unmasked,
    ⟨⟨hsep, readsOnly_lit (ne_mask_of_all rfl)⟩, hsep⟩, readsLegibly_identifier.unmasked⟩
  printable := (OpensWith.refl.seq _).startsWith readsLegibly_identifier.printable
    readsSome_identifier_true

theorem Java.readsLegibly_fqName : Java.fqName.ReadsLegibly := readsLegibly_dotted blank_ne_mask

theorem Python.hblank_ne_mask : ReadsOnly (· ≠ Char.ofNat 0x1a) Python.hblanks :=
  CharSet.ofString_sub (ne_mask_of_all rfl)

theorem Python.readsLegibly_qualifiedName : Python.qualifiedName.ReadsLegibly :=
  readsLegibly_dotted hblank_ne_mask

/-- The dots of a relative import. -/
theorem Python.readsLegibly_dots : (many (lit ".")).ReadsLegibly where
  unmasked := readsOnly_lit (ne_mask_of_all rfl)
  printable := startsWith_lit (show ".".toList = ['.'] from rfl) ⟨by decide, by decide⟩

/-- A pattern that opens with a literal whose first character is printable starts with it. -/
theorem startsWith_of_lit {s : String} {c : Char} {cs : List Char} (hs : s.toList = c :: cs)
    (hc : Printable c) {p : Pattern} (hp : OpensWith (lit s) p) : StartsWith Printable p :=
  hp.startsWith (startsWith_lit hs hc) (readsSome_lit hs trivial)

/-! ### Java -/

namespace Java

/-- Comments and literals open with a slash or a quote. -/
theorem startsWith_literal : StartsWith Printable literal := by
  refine startsWith_alts fun p hp => ?_
  simp only [List.mem_cons, List.not_mem_nil, or_false] at hp
  rcases hp with rfl | rfl | rfl | rfl | rfl
  · exact startsWith_of_lit (show "//".toList = ['/', '/'] from rfl) ⟨by decide, by decide⟩
      (.seq _ .refl)
  · exact startsWith_of_lit (show "/*".toList = ['/', '*'] from rfl) ⟨by decide, by decide⟩
      (.seq _ (.seq _ (.seq _ (.seq _ .refl))))
  · exact startsWith_of_lit (show "\"\"\"".toList = ['"', '"', '"'] from rfl)
      ⟨by decide, by decide⟩ (.seq _ (.seq _ .refl))
  · exact startsWith_of_lit (show "\"".toList = ['"'] from rfl) ⟨by decide, by decide⟩
      (.seq _ (.seq _ .refl))
  · exact startsWith_of_lit (show "'".toList = ['\''] from rfl) ⟨by decide, by decide⟩
      (.seq _ (.seq _ .refl))

theorem groupBodies_typeName : declaration.groupBodies "typeName" = [identifier] := rfl

theorem groupBodies_methodName : declaration.groupBodies "methodName" = [identifier] := rfl

theorem groupBodies_ctorName : declaration.groupBodies "ctorName" = [identifier] := rfl

/-- An anonymous class is read from the keyword `new` on. -/
theorem groupBodies_anon :
    declaration.groupBodies "anon" = [wordBoundary ++ lit "new" ++ blanks1
      ++ group "superType" annotatedTypeUse ++ opt (group "anonTypeArgs" typeArgs) ++ blanks
      ++ lit "(" ++ args ++ lit ")" ++ blanks ++ flatBlock] := rfl

theorem groupBodies_importName : importDecl.groupBodies "name" = [fqName] := rfl

/-- The keyword `new` as a whole word. -/
theorem readsLegibly_new : (wordBoundary ++ lit "new").ReadsLegibly where
  unmasked := ⟨trivial, readsOnly_lit (ne_mask_of_all rfl)⟩
  printable := ⟨trivial, .inr (startsWith_lit (show "new".toList = ['n', 'e', 'w'] from rfl)
    ⟨by decide, by decide⟩)⟩

theorem new_stop {v : ByteArray} {a k : Nat} (h : Matches v (wordBoundary ++ lit "new") a k) :
    k = a + 3 := by
  change Matches v (.seq .wordBoundary (.seq (.chars (CharSet.range 'n' 'n'))
    (.seq (.chars (CharSet.range 'e' 'e')) (.chars (CharSet.range 'w' 'w'))))) a k at h
  cases h with | seq hwb h =>
  cases hwb
  cases h with | seq h₁ h =>
  cases h with | seq h₂ h₃ =>
  obtain ⟨-, rfl⟩ := h₁.ascii (by decide)
  obtain ⟨-, rfl⟩ := h₂.ascii (by decide)
  obtain ⟨-, rfl⟩ := h₃.ascii (by decide)
  rfl

/-- Where the name of a declaration match stands: the group the declaration's name is read
from, and for an anonymous class, which is named by its place, the keyword `new`. -/
def nameToken (m : Match) : Option (Nat × Nat) :=
  if m.has "type" then m.group? "typeName"
  else if m.has "anon" then (m.group? "anon").map fun r => (r.1, r.1 + 3)
  else if m.has "method" then m.group? "methodName"
  else m.group? "ctorName"

/-- A declaration other than an anonymous class is named by the trimmed text at its name
token. -/
theorem Decl.name_ofMatch (t : Overlay) (m : Match) (h : (Decl.ofMatch t m).isAnonymous = false) :
    (Decl.ofMatch t m).name =
      ((nameToken m).map fun r => Text.trim (t.sourceSlice r.1 r.2)).getD "" := by
  unfold nameToken
  unfold Decl.ofMatch Decl.isAnonymous at *
  split_ifs at h ⊢ <;> simp [Overlay.groupSource, Option.map_map, Function.comp_def] at h ⊢

theorem searchAt_of_nextDeclaration {t : Overlay} {m : Match} (h : nextDeclaration t = some m) :
    ∃ pos, declaration.compile.searchAt t.view pos = some m := by
  obtain ⟨pos, hfound⟩ := nextDeclarationFrom_found h
  unfold Overlay.findAt at hfound
  split at hfound
  · cases hfound
  · exact ⟨pos, hfound⟩

/-- The name token of the next declaration, in a view that conceals the regions, lies outside
them. -/
theorem nameToken_clear {R : List (Nat × Nat)} {t : Overlay} (h : Conceals R t)
    {m : Match} (hm : nextDeclaration t = some m) {a b : Nat} (htok : nameToken m = some (a, b)) :
    Clear R a b := by
  obtain ⟨pos, hsearch⟩ := searchAt_of_nextDeclaration hm
  unfold nameToken at htok
  split_ifs at htok
  · exact h.clear_of_searchAt groupBodies_typeName rfl readsLegibly_identifier hsearch htok
  · -- an anonymous class: its token is the keyword its group reads first
    obtain ⟨⟨a', b'⟩, hab, heq⟩ := Option.map_eq_some_iff.1 htok
    cases heq
    obtain ⟨q, hq, hmatch⟩ :=
      Program.searchAt_group (groupsApart_single groupBodies_anon rfl) hsearch hab
    rw [groupBodies_anon, List.mem_singleton] at hq
    subst hq
    obtain ⟨k, hk⟩ := hmatch.opensWith (.seq _ (.seq _ (.seq _ (.seq _ (.seq _ (.seq _
      (.seq _ (.seq _ (.seq _ .refl)))))))))
    obtain rfl := new_stop hk
    exact h.clear (legible_of_matches readsLegibly_new hk)
  · exact h.clear_of_searchAt groupBodies_methodName rfl readsLegibly_identifier hsearch htok
  · exact h.clear_of_searchAt groupBodies_ctorName rfl readsLegibly_identifier hsearch htok

/-- The views the declaration loop reads and the match it takes in each, in order. -/
def takenMatches : Nat → Overlay → List (Overlay × Match)
  | 0, _ => []
  | fuel + 1, t =>
    match nextDeclaration t with
    | some m => (t, m) :: takenMatches fuel (t.mask m.start m.stop)
    | none =>
      if (t.maskAll blockProgram).2 then takenMatches fuel (t.maskAll blockProgram).1 else []

/-- The declarations the loop records are read from the matches it takes. -/
theorem recorded_eq_map_takenMatches :
    ∀ (fuel : Nat) (t : Overlay),
      recorded fuel t = (takenMatches fuel t).map fun x => Decl.ofMatch x.1 x.2
  | 0, _ => rfl
  | fuel + 1, t => by
    unfold recorded takenMatches
    cases nextDeclaration t with
    | some m => exact congrArg _ (recorded_eq_map_takenMatches fuel _)
    | none =>
      dsimp only
      split
      · exact recorded_eq_map_takenMatches fuel _
      · rfl

/-- Every view the declaration loop reads conceals what its first view conceals. -/
theorem conceals_takenMatches {R : List (Nat × Nat)} :
    ∀ {fuel : Nat} {t : Overlay}, Conceals R t →
      ∀ x ∈ takenMatches fuel t, Conceals R x.1 ∧ nextDeclaration x.1 = some x.2
  | 0, _, _, _, hx => absurd hx List.not_mem_nil
  | fuel + 1, t, h, x, hx => by
    unfold takenMatches at hx
    split at hx
    · rename_i m hm
      rcases List.mem_cons.1 hx with rfl | hx
      · exact ⟨h, hm⟩
      · exact conceals_takenMatches (h.mask m.start m.stop) x hx
    · split at hx
      · exact conceals_takenMatches (h.maskAll blockProgram) x hx
      · simp at hx

/-- The view the import declarations are read from: comments and literals masked, then the
package declaration. -/
def importView (content : String) : Overlay :=
  let t := (Overlay.ofString content).maskAll literalProgram |>.1
  let package := (t.find packageProgram).map fun m =>
    (dottedParts ((t.groupSource m "name").getD ""), m.start, m.stop)
  match package with
  | some (_, a, b) => t.mask a b
  | none => t

theorem declarationView_eq (content : String) :
    declarationView content = ((importView content).maskAll importProgram).1 := rfl

theorem conceals_importView (content : String) :
    Conceals (passRegions literalProgram content) (importView content) := by
  have h₀ := conceals_passRegions startsWith_literal content
  unfold importView
  dsimp only
  split
  · exact h₀.mask _ _
  · exact h₀

/-- Java names and imports are read outside comments and literals. -/
theorem names_clear (content : String) :
    (∀ x ∈ takenMatches ((declarationView content).size + 1) (declarationView content),
      ∀ a b, nameToken x.2 = some (a, b) → Clear (passRegions literalProgram content) a b) ∧
    ∀ m ∈ (importView content).findAll importProgram, ∀ a b,
      m.group? "name" = some (a, b) → Clear (passRegions literalProgram content) a b := by
  have hview := conceals_importView content
  refine ⟨fun x hx a b htok => ?_, fun m hm a b hab => ?_⟩
  · rw [declarationView_eq] at hx
    obtain ⟨hc, hnext⟩ := conceals_takenMatches (hview.maskAll importProgram) x hx
    exact nameToken_clear hc hnext htok
  · exact hview.clear_of_mem_findAll groupBodies_importName rfl readsLegibly_fqName hm hab

/-! ### What a Java scan stores -/

/-- The declarations `ds`, stored in order from the symbol `base` on: each at its span and,
unless an anonymous class, under its name. -/
structure Stored (base : Nat) (ds : List Decl) (t : SymbolTree) : Prop where
  size : t.size = base + ds.length
  span : ∀ k d, ds[k]? = some d → (t.get (base + k)).span = some d.span
  name : ∀ k d, ds[k]? = some d → d.isAnonymous = false → (t.get (base + k)).name = d.name

/-- Recording a declaration stores it after the others, and moves or renames none of them. -/
theorem Stored.insert {base : Nat} {ds : List Decl} {st st' : FileScan} {d : Decl}
    {adopted : List Nat} (hs : Stored base ds st.tree) (hrec : Recorded st st' d adopted) :
    Stored base (ds ++ [d]) st'.tree := by
  have hsize := hs.size
  refine ⟨by rw [hrec.size, hsize, List.length_append, List.length_singleton, Nat.add_assoc],
    fun k e he => ?_, fun k e he hanon => ?_⟩
  · rw [hrec.span]
    rcases getElem?_concat_eq_some he with ⟨hk, he⟩ | ⟨rfl, rfl⟩
    · rw [if_neg (by omega)]
      exact hs.span k e he
    · rw [if_pos hsize.symm]
  · rcases getElem?_concat_eq_some he with ⟨hk, he⟩ | ⟨rfl, rfl⟩
    · rw [hrec.name _ (by omega)]
      exact hs.name k e he hanon
    · rw [← hsize]
      exact hrec.newName hanon

/-- The file's scope adopting the declarations left waiting moves or renames none. -/
theorem Stored.finish {base n scope : Nat} {ds : List Decl} {st : FileScan}
    (hs : Stored base ds st.tree) (hp : Pending n scope st) :
    ∃ T, st.topLevel.foldlM (fun tree (x : Nat × Nat) => tree.nest scope x.2) st.tree = .ok T ∧
      Stored base ds T := by
  obtain ⟨T, hfold, hadopt, hkept⟩ := hp.adopted_scope
  refine ⟨T, hfold, ⟨by rw [hadopt.size, hs.size], fun k d hd => ?_, fun k d hd hanon => ?_⟩⟩
  · rw [(hadopt.place _).span]
    exact hs.span k d hd
  · rw [(hkept _).2.2]
    exact hs.name k d hd hanon

/-- A scan of a Java text into a shaped tree stores the declarations it reads from the matches
the declaration loop takes, in order, as the symbols after the file's scope: each at the span
read from its match and, unless an anonymous class, under the trimmed text of its name
token. -/
theorem scan_stores_takenMatches {tree : SymbolTree} (h : tree.Shaped) (path content : String) :
    ∃ T scope, Java.scan tree path content = .ok (T, tree.files.size) ∧
      T.size = scope + 1 +
        (takenMatches ((declarationView content).size + 1) (declarationView content)).length ∧
      ∀ k x, (takenMatches ((declarationView content).size + 1) (declarationView content))[k]? =
          some x →
        (T.get (scope + 1 + k)).span = some (Decl.ofMatch x.1 x.2).span ∧
        ((Decl.ofMatch x.1 x.2).isAnonymous = false →
          (T.get (scope + 1 + k)).name =
            ((nameToken x.2).map fun r => Text.trim (x.1.sourceSlice r.1 r.2)).getD "") := by
  obtain ⟨T, t, scope, hs, heq⟩ := scan_start h path content
  have h₀ : Stored (scope + 1) [] T :=
    ⟨by simpa using hs.size, fun _ _ hd => by simp at hd, fun _ _ hd => by simp at hd⟩
  obtain ⟨st, hdecl, hst, hw⟩ := Pending.declarations_recorded
    (fun ds st => Stored (scope + 1) ds st.tree)
    (fun _ _ _ _ hp hw hins => hw.insert (hp.recorded_of_insert hins))
    (t.size + 1) t _ [] rfl (hs.pending path) h₀
  obtain ⟨T', hfin, hT'⟩ := hw.finish hst
  rw [List.nil_append, recorded_eq_map_takenMatches, hs.view] at hT'
  refine ⟨T', scope, ?_, by rw [hT'.size, List.length_map], fun k x hx => ?_⟩
  · rw [heq]
    exact bind_adopt_ok _ hdecl hfin
  · have hd : ((takenMatches ((declarationView content).size + 1) (declarationView content)).map
        fun x => Decl.ofMatch x.1 x.2)[k]? = some (Decl.ofMatch x.1 x.2) := by
      rw [List.getElem?_map, hx]
      rfl
    exact ⟨hT'.span k _ hd,
      fun hanon => (hT'.name k _ hd hanon).trans (Decl.name_ofMatch _ _ hanon)⟩

end Java

/-! ### Python -/

namespace Python

/-- Comments open with `#`, strings with a quote. -/
theorem startsWith_literal : StartsWith Printable literal := by
  refine startsWith_alts fun p hp => ?_
  simp only [List.mem_cons, List.not_mem_nil, or_false] at hp
  rcases hp with rfl | rfl | rfl | rfl | rfl
  · exact startsWith_of_lit (show "#".toList = ['#'] from rfl) ⟨by decide, by decide⟩
      (.seq _ .refl)
  · exact startsWith_of_lit (show "'''".toList = ['\'', '\'', '\''] from rfl)
      ⟨by decide, by decide⟩ (.seq _ (.seq _ .refl))
  · exact startsWith_of_lit (show "\"\"\"".toList = ['"', '"', '"'] from rfl)
      ⟨by decide, by decide⟩ (.seq _ (.seq _ .refl))
  · exact startsWith_of_lit (show "'".toList = ['\''] from rfl) ⟨by decide, by decide⟩
      (.seq _ (.seq _ .refl))
  · exact startsWith_of_lit (show "\"".toList = ['"'] from rfl) ⟨by decide, by decide⟩
      (.seq _ (.seq _ .refl))

theorem groupBodies_name : declaration.groupBodies "name" = [identifier] := rfl

theorem groupBodies_relative : importStatement.groupBodies "relative" = [many (lit ".")] := rfl

theorem groupBodies_from : importStatement.groupBodies "from" = [qualifiedName] := rfl

theorem groupBodies_source : importElement.groupBodies "source" = [qualifiedName] := rfl

/-- The view the header loop starts from: comments and strings masked, then line
continuations blanked. -/
def headerView (content : String) : Overlay :=
  (((Overlay.ofString content).maskAll literalProgram).1.maskAllWith continuationProgram ' ').1

/-- The views the header loop reads and the header match it takes in each, in order. -/
def takenHeaders : Nat → Overlay → List (Overlay × Match)
  | 0, _ => []
  | fuel + 1, t =>
    match t.find declarationProgram with
    | none => []
    | some m => (t, m) :: takenHeaders fuel (t.mask m.start m.stop)

/-- The view the header loop leaves, from which the imports are read. -/
def headersMasked : Nat → Overlay → Overlay
  | 0, t => t
  | fuel + 1, t =>
    match t.find declarationProgram with
    | none => t
    | some m => headersMasked fuel (t.mask m.start m.stop)

theorem insert_recorded {st st' : ModuleScan} {h : Header} {span : Span}
    (hins : insert st h span = .ok st') : st'.recorded = st.recorded ++ [(st.tree.size, span)] := by
  obtain ⟨s, heq, -⟩ := insert_cases st h span
  rw [heq] at hins
  generalize (st.tree.alloc s).1.nest (((closeScopes span st.enclosing).head?.map (·.1)).getD 0)
    st.tree.size = r at hins
  cases r with
  | error e => cases hins
  | ok tree =>
    cases hins
    rfl

/-- What recording a header keeps, read against the header matches taken so far, a run of the
header loop keeps over the matches `takenHeaders` lists; the run leaves the view
`headersMasked`. -/
theorem headers_taken (Q : List (Overlay × Match) → ModuleScan → Prop)
    (hstep : ∀ xs st st' (t : Overlay) (m : Match) (span : Span), Q xs st →
      span.start = m.start → insert st (Header.ofMatch t m) span = .ok st' →
      Q (xs ++ [(t, m)]) st') :
    ∀ (fuel : Nat) (t : Overlay) (st : ModuleScan) (xs : List (Overlay × Match)) {t' : Overlay}
      {st' : ModuleScan}, headers fuel t st = .ok (t', st') → Q xs st →
        t' = headersMasked fuel t ∧ Q (xs ++ takenHeaders fuel t) st'
  | 0, t, st, xs, t', st', h, hq => by
    cases h
    simpa [headersMasked, takenHeaders] using hq
  | fuel + 1, t, st, xs, t', st', h, hq => by
    cases hfind : t.find declarationProgram with
    | none =>
      simp only [headers, hfind] at h
      cases h
      simpa [headersMasked, takenHeaders, hfind] using hq
    | some m =>
      simp only [headers, hfind] at h
      simp only [headersMasked, takenHeaders, hfind]
      cases hins : insert st (Header.ofMatch t m)
          ⟨(Header.ofMatch t m).start, bodyEnd t.view m.stop (Header.ofMatch t m).indent⟩ with
      | error e => simp [hins, bind, Except.bind] at h
      | ok st₁ =>
        simp only [hins, bind, Except.bind] at h
        have hstart : (Header.ofMatch t m).start = m.start := rfl
        obtain ⟨rfl, hq'⟩ := headers_taken Q hstep fuel _ st₁ _ h (hstep _ _ _ _ _ _ hq rfl hins)
        exact ⟨rfl, by simpa [hstart] using hq'⟩

/-- The header loop takes the headers `takenHeaders` lists and records them in that order, and
leaves the view `headersMasked`. -/
theorem headers_run (fuel : Nat) (t : Overlay) (st : ModuleScan) {t' : Overlay}
    {st' : ModuleScan} (h : headers fuel t st = .ok (t', st')) :
    t' = headersMasked fuel t ∧
      st'.recorded.map (·.2.start) =
        st.recorded.map (·.2.start) ++ (takenHeaders fuel t).map (·.2.start) := by
  obtain ⟨ht, hrec⟩ := headers_taken
    (fun xs s => s.recorded.map (·.2.start) = st.recorded.map (·.2.start) ++ xs.map (·.2.start))
    (fun _ _ _ _ _ _ hq hspan hins => by simp [insert_recorded hins, hq, hspan])
    fuel t st [] h (by simp)
  exact ⟨ht, by simpa using hrec⟩

/-- Every view the header loop reads, and the view it leaves, conceal what its first view
conceals. -/
theorem conceals_takenHeaders {R : List (Nat × Nat)} :
    ∀ (fuel : Nat) {t : Overlay}, Conceals R t →
      Conceals R (headersMasked fuel t) ∧
        ∀ x ∈ takenHeaders fuel t, Conceals R x.1 ∧ x.1.find declarationProgram = some x.2
  | 0, _, h => ⟨h, by simp [takenHeaders]⟩
  | fuel + 1, t, h => by
    unfold headersMasked takenHeaders
    split
    · exact ⟨h, by simp⟩
    · rename_i m hm
      obtain ⟨hlast, hrest⟩ := conceals_takenHeaders fuel (h.mask m.start m.stop)
      refine ⟨hlast, fun x hx => ?_⟩
      rcases List.mem_cons.1 hx with rfl | hx
      · exact ⟨h, hm⟩
      · exact hrest x hx

theorem conceals_headerView (content : String) :
    Conceals (passRegions literalProgram content) (headerView content) :=
  (conceals_passRegions startsWith_literal content).maskAllWith_continuation
    ((faithful_ofString content).edit (.maskAll literalProgram))

theorem searchAt_of_find {t : Overlay} {m : Match} (h : t.find declarationProgram = some m) :
    declaration.compile.searchAt t.view 0 = some m := by
  unfold Overlay.find Overlay.findAt at h
  split at h
  · cases h
  · exact h

/-- Where an import statement's text is read from lies outside every region: its relative dots,
the module it imports from, and the source of each name in its list. -/
def ImportClear (R : List (Nat × Nat)) (t : Overlay) (m : Match) : Prop :=
  (∀ g ∈ ["relative", "from"], ∀ a b, m.group? g = some (a, b) → Clear R a b) ∧
    ∀ g ∈ ["plist", "list"], ∀ a b, m.group? g = some (a, b) →
      ∀ e ∈ (t.slice a b).findAll elementProgram, ∀ c d, e.group? "source" = some (c, d) →
        Clear R ((t.widen a b).1 + c) ((t.widen a b).1 + d)

/-- An import statement read in a view that conceals the regions is read outside them. -/
theorem importClear_of_findAll {R : List (Nat × Nat)} {t : Overlay} (h : Conceals R t) {m : Match}
    (hm : m ∈ t.findAll importProgram) : ImportClear R t m := by
  refine ⟨fun g hg a b hab => ?_, fun g _ a b _ e he c d hcd => ?_⟩
  · simp only [List.mem_cons, List.not_mem_nil, or_false] at hg
    rcases hg with rfl | rfl
    · exact h.clear_of_mem_findAll groupBodies_relative rfl readsLegibly_dots hm hab
    · exact h.clear_of_mem_findAll groupBodies_from rfl readsLegibly_qualifiedName hm hab
  · -- a name of the list is read in the list's own text
    obtain ⟨q, hq, hmatch⟩ :=
      Program.mem_findAll_group (groupsApart_single groupBodies_source rfl) he hcd
    rw [groupBodies_source, List.mem_singleton] at hq
    subst hq
    exact h.clear (legible_of_matches readsLegibly_qualifiedName hmatch).of_slice

/-- Python names and imports are read outside comments and strings. -/
theorem names_clear (content : String) :
    (∀ x ∈ takenHeaders ((headerView content).size + 1) (headerView content),
      ∀ a b, x.2.group? "name" = some (a, b) →
        Clear (passRegions literalProgram content) a b) ∧
    ∀ m ∈ Overlay.findAll
        (headersMasked ((headerView content).size + 1) (headerView content)) importProgram,
      ImportClear (passRegions literalProgram content)
        (headersMasked ((headerView content).size + 1) (headerView content)) m := by
  obtain ⟨hlast, hviews⟩ :=
    conceals_takenHeaders ((headerView content).size + 1) (conceals_headerView content)
  refine ⟨fun x hx a b hab => ?_, fun m hm => importClear_of_findAll hlast hm⟩
  obtain ⟨hc, hfind⟩ := hviews x hx
  exact hc.clear_of_searchAt groupBodies_name rfl readsLegibly_identifier (searchAt_of_find hfind)
    hab

/-! ### What a Python scan stores -/

/-- The headers of the matches `xs`, each read in the view paired with it, stored in order from
the symbol `base` on: each under the text of its name group, at a span from where its match
starts. -/
structure Stored (base : Nat) (xs : List (Overlay × Match)) (t : SymbolTree) : Prop where
  size : t.size = base + xs.length
  name : ∀ k x, xs[k]? = some x →
    (t.get (base + k)).name = (x.1.groupSource x.2 "name").getD ""
  start : ∀ k x, xs[k]? = some x → (t.get (base + k)).span.map (·.start) = some x.2.start

/-- Recording a header stores it after the others, and moves or renames none of them. -/
theorem Stored.insert {base : Nat} {xs : List (Overlay × Match)} {st st' : ModuleScan}
    {t : Overlay} {m : Match} {span : Span} (hs : Stored base xs st.tree)
    (hspan : span.start = m.start) (hins : insert st (Header.ofMatch t m) span = .ok st') :
    Stored base (xs ++ [(t, m)]) st'.tree := by
  obtain ⟨s, heq, -, -, -, hss, -, -, hsn⟩ := insert_cases st (Header.ofMatch t m) span
  rw [heq] at hins
  cases hnest : (st.tree.alloc s).1.nest (((closeScopes span st.enclosing).head?.map (·.1)).getD 0)
      st.tree.size with
  | error e =>
    rw [hnest] at hins
    cases hins
  | ok tree =>
    rw [hnest] at hins
    cases hins
    -- nesting only links the new symbol below its scope
    have hget := SymbolTree.get_link_name_span (st.tree.alloc s).1
      (((closeScopes span st.enclosing).head?.map (·.1)).getD 0) st.tree.size
    rw [← SymbolTree.nest_ok hnest] at hget
    have hsize := hs.size
    refine ⟨by rw [SymbolTree.nest_ok hnest, SymbolTree.size_link, SymbolTree.size_alloc, hsize,
      List.length_append, List.length_singleton, Nat.add_assoc], fun k x hx => ?_, fun k x hx => ?_⟩
    · rw [(hget _).1, SymbolTree.get_alloc]
      rcases getElem?_concat_eq_some hx with ⟨hk, hx⟩ | ⟨rfl, rfl⟩
      · rw [if_neg (by omega)]
        exact hs.name k x hx
      · rw [if_pos hsize.symm, hsn]
        rfl
    · rw [(hget _).2, SymbolTree.get_alloc]
      rcases getElem?_concat_eq_some hx with ⟨hk, hx⟩ | ⟨rfl, rfl⟩
      · rw [if_neg (by omega)]
        exact hs.start k x hx
      · rw [if_pos hsize.symm, hss, Option.map_some, hspan]

/-- A scan of a Python text into a shaped tree stores the headers the loop takes, in order, as
new symbols: each under the text of its name group, at a span that starts where its match
starts. -/
theorem scan_stores_takenHeaders {tree : SymbolTree} (h : tree.Shaped) (path content : String) :
    ∃ T base, Python.scan tree path content = .ok (T, tree.files.size) ∧
      T.size = base + (takenHeaders ((headerView content).size + 1) (headerView content)).length ∧
      ∀ k x, (takenHeaders ((headerView content).size + 1) (headerView content))[k]? = some x →
        (T.get (base + k)).name =
          ((x.2.group? "name").map fun r => x.1.sourceSlice r.1 r.2).getD "" ∧
        (T.get (base + k)).span.map (·.start) = some x.2.start := by
  obtain ⟨module, t₀, st₀, -, hview, hsize, hopen, -, -, -, -, hrun⟩ :=
    scan_run_placed h path content
  obtain ⟨t, st, hheaders, -⟩ := Open.headers (t₀.size + 1) t₀ st₀ hsize hopen
  obtain ⟨T, hscan, -, hTsize, hsame, -⟩ := hrun t st hheaders
  obtain ⟨-, hst⟩ := headers_taken (fun xs s => Stored st₀.tree.size xs s.tree)
    (fun _ _ _ _ _ _ hs hspan hins => hs.insert hspan hins) _ _ _ [] hheaders
    ⟨by simp, fun _ _ hx => by simp at hx, fun _ _ hx => by simp at hx⟩
  replace hview : t₀ = headerView content := hview
  rw [List.nil_append, hview] at hst
  refine ⟨T, st₀.tree.size, hscan, by rw [hTsize, hst.size], fun k x hx => ⟨?_, ?_⟩⟩
  · rw [(hsame _).name, hst.name k x hx]
    rfl
  · rw [(hsame _).span]
    exact hst.start k x hx

end Python

/-- No name a scanner records, and no text an import is read from, comes from a comment or a
string literal: each lies outside every region the scanner's first pass matches. For Java the
recorded declarations are read from the matches the declaration loop takes, and each one's
name token (for an anonymous class, the keyword `new`) is clear, as is the name of each import
declaration. For Python the header loop records the headers it takes, in order, and leaves the
view the imports are read from; each header's name is clear, as are the relative dots, the
module and the imported names of each import statement. The symbols a scan stores are these
declarations, each under the text at its name token (`Java.scan_stores_takenMatches`,
`Python.scan_stores_takenHeaders`). -/
theorem scanned_names_outside_literals (content : String) :
    (Java.scannedDecls content =
        (Java.takenMatches ((Java.declarationView content).size + 1)
          (Java.declarationView content)).map (fun x => Java.Decl.ofMatch x.1 x.2) ∧
      (∀ x ∈ Java.takenMatches ((Java.declarationView content).size + 1)
          (Java.declarationView content), ∀ a b, Java.nameToken x.2 = some (a, b) →
        Clear (passRegions Java.literalProgram content) a b) ∧
      ∀ m ∈ (Java.importView content).findAll Java.importProgram, ∀ a b,
        m.group? "name" = some (a, b) → Clear (passRegions Java.literalProgram content) a b) ∧
    ((∀ st t' st', Python.headers ((Python.headerView content).size + 1)
          (Python.headerView content) st = .ok (t', st') →
        t' = Python.headersMasked ((Python.headerView content).size + 1)
          (Python.headerView content) ∧
        st'.recorded.map (·.2.start) = st.recorded.map (·.2.start) ++
          (Python.takenHeaders ((Python.headerView content).size + 1)
            (Python.headerView content)).map (·.2.start)) ∧
      (∀ x ∈ Python.takenHeaders ((Python.headerView content).size + 1)
          (Python.headerView content), ∀ a b, x.2.group? "name" = some (a, b) →
        Clear (passRegions Python.literalProgram content) a b) ∧
      ∀ m ∈ (Python.headersMasked ((Python.headerView content).size + 1)
          (Python.headerView content)).findAll Python.importProgram,
        Python.ImportClear (passRegions Python.literalProgram content)
          (Python.headersMasked ((Python.headerView content).size + 1)
            (Python.headerView content)) m) :=
  ⟨⟨Java.recorded_eq_map_takenMatches _ _, Java.names_clear content⟩,
    ⟨fun st _ _ h => Python.headers_run _ _ st h, Python.names_clear content⟩⟩

end Lineage
