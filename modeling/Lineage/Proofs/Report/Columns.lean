import Lineage.Report.Tree
/-!
The columns of a type's method block.

A type's methods are sorted by name; the private ones are only counted, and each other one
becomes a row (`methodRow`): its modifiers, type parameters, return type, and `name(params)`,
with the types whose methods override it at the end. Each column is as wide as its widest
entry over the rows of the block (`ColumnWidths.ofRows`), and each row is padded to these
widths (`MethodRow.line`). Every row fits the widths, so no padding is ever cut short, and
then the name of every row starts at one column and the list of overriding types at another.

* `methodRows_eq`: the rows are those of the methods that are not private, in order, and the
  count is that of the private ones;
* `ColumnWidths.fits_ofRows`: every row fits the widths of its block;
* `MethodRow.line_eq`: a row is its head (prefix and first three columns), its signature,
  and the padded list of overriding types;
* `MethodRow.line_name`, `MethodRow.line_overridden`: in a row that fits, `name(` starts after
  the prefix and the first three columns, and `[overridden in ` after the signature column;
* `methodLines_columns`: the lines of a block as they are printed, and how they line up.
-/
namespace Lineage

/-! ### Rows -/

/-- Taking methods into a block counts the private ones and adds the rows of the others. -/
theorem foldl_addMethodRow (tree : SymbolTree) (h : Hierarchy) :
    ∀ (ms : List Nat) (acc : Nat × List MethodRow), ms.foldl (addMethodRow tree h) acc =
      (acc.1 + (ms.filter (isPrivateMethod tree h)).length,
        acc.2 ++ (ms.filter fun m => !isPrivateMethod tree h m).map (methodRow tree h))
  | [], acc => by simp
  | m :: ms, acc => by
    rw [List.foldl_cons, foldl_addMethodRow tree h ms, addMethodRow]
    by_cases hp : isPrivateMethod tree h m
    · simp only [hp, if_true, List.filter_cons_of_pos hp, List.length_cons, Bool.not_true,
        Bool.false_eq_true, not_false_eq_true, List.filter_cons_of_neg]
      ext <;> simp only
      omega
    · simp [hp]

theorem methodRows_eq (tree : SymbolTree) (h : Hierarchy) (ms : List Nat) :
    methodRows tree h ms = ((ms.filter (isPrivateMethod tree h)).length,
      (ms.filter fun m => !isPrivateMethod tree h m).map (methodRow tree h)) := by
  rw [methodRows, foldl_addMethodRow]
  simp

/-- The rows of a type's block: those of its methods that are not private, in the order
they are shown. -/
def shownRows (tree : SymbolTree) (h : Hierarchy) (ty : Nat) : List MethodRow :=
  ((sortMethods h (h.node ty).methods.toList).filter fun m => !isPrivateMethod tree h m).map
    (methodRow tree h)

/-- The number of a type's private methods. -/
def privateCount (tree : SymbolTree) (h : Hierarchy) (ty : Nat) : Nat :=
  ((h.node ty).methods.toList.filter (isPrivateMethod tree h)).length

/-- The block of a type holds the rows shown and counts its private methods: sorting loses
none. -/
theorem methodRows_sortMethods (tree : SymbolTree) (h : Hierarchy) (ty : Nat) :
    methodRows tree h (sortMethods h (h.node ty).methods.toList) =
      (privateCount tree h ty, shownRows tree h ty) := by
  rw [methodRows_eq, privateCount, shownRows]
  congr 1
  exact ((List.mergeSort_perm _ _).filter _).length_eq

/-! ### Widths -/

/-- A row fits column widths when none of its entries is wider than its column. -/
structure ColumnWidths.Fits (w : ColumnWidths) (r : MethodRow) : Prop where
  modifiers : r.modifierWidth ≤ w.modifiers
  typeParams : r.typeParams.length ≤ w.typeParams
  returnType : r.returnType.length ≤ w.returnType
  signature : r.signatureWidth - 1 ≤ w.signature

theorem le_foldl_max {l : List Nat} {x : Nat} (hx : x ∈ l) : x ≤ l.foldl max 0 := by
  rw [List.foldl_max_eq_max (List.ne_nil_of_mem hx)]
  exact Nat.le_trans (List.le_max_of_mem hx) (Nat.le_max_right _ _)

/-- A column holding a text is at least as wide as the text. -/
theorem length_le_columnWidth (s : String) : s.length ≤ columnWidth s := by
  unfold columnWidth
  split
  · rename_i hs
    simp [String.isEmpty_iff.1 hs]
  · omega

/-- Every row of a block fits the widths of the block. -/
theorem ColumnWidths.fits_ofRows {rows : List MethodRow} {r : MethodRow} (hr : r ∈ rows) :
    (ColumnWidths.ofRows rows).Fits r where
  modifiers := le_foldl_max (List.mem_map_of_mem hr)
  typeParams := Nat.le_trans (length_le_columnWidth _)
    (le_foldl_max (List.mem_map_of_mem (f := fun r => columnWidth r.typeParams) hr))
  returnType := Nat.le_trans (length_le_columnWidth _)
    (le_foldl_max (List.mem_map_of_mem (f := fun r => columnWidth r.returnType) hr))
  signature := Nat.le_trans (Nat.sub_le _ _) (le_foldl_max (List.mem_map_of_mem hr))

/-! ### Lines -/

@[simp] theorem length_spaces (n : Nat) : (spaces n).length = n := by
  simp [spaces]

/-- The modifiers, each followed by a space, are as wide as the row counts them. -/
theorem length_modifiers (r : MethodRow) :
    (String.join (r.modifiers.map fun m => modifierLabel m ++ " ")).length = r.modifierWidth := by
  rw [MethodRow.modifierWidth]
  generalize r.modifiers = ms
  induction ms with
  | nil => simp
  | cons m ms ih =>
    have hspace : " ".length = 1 := rfl
    simp only [List.map_cons, String.join_cons, String.length_append, ih, List.foldr_cons, hspace]

namespace MethodRow

variable {w : ColumnWidths} {r : MethodRow}

/-- What a row shows before the method's name: the prefix, the modifiers each with a space,
and the type parameters and the return type, each padded to its column. -/
def head (w : ColumnWidths) (p : String) (r : MethodRow) : String :=
  p ++ String.join (r.modifiers.map fun m => modifierLabel m ++ " ") ++
    spaces (w.modifiers - r.modifierWidth) ++ r.typeParams ++
    spaces (w.typeParams - r.typeParams.length) ++
    r.returnType ++ spaces (w.returnType - r.returnType.length)

/-- The signature a row shows: `name(params)`. -/
def signatureText (r : MethodRow) : String := r.name ++ "(" ++ ", ".intercalate r.params ++ ")"

/-- A row is its head, its signature, and the padded list of overriding types if any. -/
theorem line_eq (w : ColumnWidths) (p : String) (r : MethodRow) :
    r.line w p = r.head w p ++ r.signatureText ++
      if r.overriddenIn.isEmpty then ""
      else spaces (w.signature - (r.signatureWidth - 1)) ++ "[overridden in " ++
        ", ".intercalate r.overriddenIn ++ "]" := by
  unfold line head signatureText
  split <;> simp [String.append_assoc]

/-- In a row that fits, the head spans the prefix and the widths of the modifiers, type
parameters and return type. -/
theorem length_head (p : String) (hfit : w.Fits r) :
    (r.head w p).length = p.length + w.modifiers + w.typeParams + w.returnType := by
  simp only [head, String.length_append, length_modifiers, length_spaces]
  have := hfit.modifiers
  have := hfit.typeParams
  have := hfit.returnType
  omega

/-- The signature is one narrower than its column entry. -/
theorem length_signatureText (r : MethodRow) : r.signatureText.length = r.signatureWidth - 1 := by
  have hopen : "(".length = 1 := rfl
  have hclose : ")".length = 1 := rfl
  simp only [signatureText, String.length_append, signatureWidth, hopen, hclose]
  omega

/-- In a row that fits, `name(` starts after the prefix and the widths of the modifiers,
type parameters and return type. -/
theorem line_name (p : String) (hfit : w.Fits r) :
    ∃ pre post, r.line w p = pre ++ (r.name ++ "(") ++ post ∧
      pre.length = p.length + w.modifiers + w.typeParams + w.returnType := by
  refine ⟨r.head w p, ", ".intercalate r.params ++ ")" ++
      if r.overriddenIn.isEmpty then ""
      else spaces (w.signature - (r.signatureWidth - 1)) ++ "[overridden in " ++
        ", ".intercalate r.overriddenIn ++ "]", ?_, length_head p hfit⟩
  rw [line_eq, signatureText]
  simp only [String.append_assoc]

/-- In a row that fits and lists overriding types, `[overridden in ` starts after the prefix
and the widths of all four columns. -/
theorem line_overridden (p : String) (hfit : w.Fits r) (ho : r.overriddenIn ≠ []) :
    ∃ pre post, r.line w p = pre ++ "[overridden in " ++ post ∧
      pre.length = p.length + w.modifiers + w.typeParams + w.returnType + w.signature := by
  refine ⟨r.head w p ++ r.signatureText ++ spaces (w.signature - (r.signatureWidth - 1)),
    ", ".intercalate r.overriddenIn ++ "]", ?_, ?_⟩
  · rw [line_eq, if_neg (by simpa using ho)]
    simp only [String.append_assoc]
  · -- the signature and its padding fill the signature column
    rw [String.length_append, String.length_append, length_head p hfit, length_signatureText,
      length_spaces]
    have := hfit.signature
    omega

/-- Trimming the end of a text whose last character is no blank leaves it as it is. -/
theorem trimEnd_append_of_getLast? (s t : String) {c : Char} (ht : t.toList.getLast? = some c)
    (hc : Text.isBlank c = false) : Text.trimEnd (s ++ t) = s ++ t := by
  obtain ⟨l, hl⟩ := List.getLast?_eq_some_iff.1 ht
  rw [Text.trimEnd, String.toList_append, hl, ← List.append_assoc, List.reverse_append,
    List.reverse_singleton, List.singleton_append, List.dropWhile_cons_of_neg (by simp [hc]),
    List.reverse_cons, List.reverse_reverse, List.append_assoc, ← hl, ← String.toList_append,
    String.ofList_toList]

/-- A row ends with a parenthesis or a bracket, so trimming its end leaves it as it is. -/
theorem trimEnd_line (w : ColumnWidths) (p : String) (r : MethodRow) :
    Text.trimEnd (r.line w p) = r.line w p := by
  rw [line_eq]
  split
  · rw [String.append_empty]
    exact trimEnd_append_of_getLast? _ _ (c := ')')
      (by simp [signatureText, List.getLast?_cons]) rfl
  · exact trimEnd_append_of_getLast? _ _ (c := ']') (by simp [List.getLast?_cons]) rfl

end MethodRow

/-! ### The block -/

/-- The lines of a type's methods: a note when it has none; otherwise a blank line and one
line per method that is not private, in order, and a line counting the private ones when
there are any. Every row fits the widths of the block, so no padding is cut short; in every
row `name(` starts after the prefix and the widest modifiers, type parameters and return
type of the block, and in every row with overriding types `[overridden in ` starts after the
widest signature too. -/
theorem methodLines_columns (tree : SymbolTree) (h : Hierarchy) (p : String) (ty : Nat) :
    (methodLines tree h p ty =
      if (h.node ty).methods.isEmpty then
        p ++ (if (h.node ty).isExternal then "[methods unknown]" else "[no methods]") ++ "\n"
      else
        (if (shownRows tree h ty).isEmpty then "" else blankLine p) ++
        String.join ((shownRows tree h ty).map fun r =>
          r.line (ColumnWidths.ofRows (shownRows tree h ty)) p ++ "\n") ++
        (if privateCount tree h ty > 0 then
          p ++ "[" ++ toString (privateCount tree h ty) ++ " private method" ++
            plural (privateCount tree h ty) ++ "]\n"
        else "")) ∧
    ∀ r ∈ shownRows tree h ty, (ColumnWidths.ofRows (shownRows tree h ty)).Fits r ∧
      (∃ pre post, r.line (ColumnWidths.ofRows (shownRows tree h ty)) p =
          pre ++ (r.name ++ "(") ++ post ∧
        pre.length = p.length + (ColumnWidths.ofRows (shownRows tree h ty)).modifiers +
          (ColumnWidths.ofRows (shownRows tree h ty)).typeParams +
          (ColumnWidths.ofRows (shownRows tree h ty)).returnType) ∧
      (r.overriddenIn ≠ [] → ∃ pre post, r.line (ColumnWidths.ofRows (shownRows tree h ty)) p =
          pre ++ "[overridden in " ++ post ∧
        pre.length = p.length + (ColumnWidths.ofRows (shownRows tree h ty)).modifiers +
          (ColumnWidths.ofRows (shownRows tree h ty)).typeParams +
          (ColumnWidths.ofRows (shownRows tree h ty)).returnType +
          (ColumnWidths.ofRows (shownRows tree h ty)).signature) := by
  refine ⟨?_, fun r hr => ?_⟩
  · rw [methodLines]
    dsimp only
    split
    · rfl
    · rw [methodRows_sortMethods]
      simp only [MethodRow.trimEnd_line]
  · have hfit := ColumnWidths.fits_ofRows hr
    exact ⟨hfit, MethodRow.line_name p hfit, MethodRow.line_overridden p hfit⟩

/-- An overriding `area` and a plain `compareTo(Square)`: the names line up after the
widest modifiers and return type. -/
example : (let area : MethodRow := ⟨[.override], "", "double", "area", [], []⟩
    let compareTo : MethodRow := ⟨[], "", "int", "compareTo", ["Square"], []⟩
    [area.line (ColumnWidths.ofRows [area, compareTo]) "    ",
      compareTo.line (ColumnWidths.ofRows [area, compareTo]) "    "]) =
    ["    override double area()", "             int    compareTo(Square)"] := by decide

end Lineage
