import Lineage.Language
/-!
What the look-behind of a Java call pattern stands for.

A Java call pattern has one alternative per call target, `(?<!R )name`, where `R` is the
target's return type with a backslash put before each `[` and `]` (`escapeBrackets`), so that
the declaration `R name(` is not taken for a call. Read as a Perl-style pattern, a text stands
for one literal string when it is a run of literal characters (`Pcre.literal`): a backslash
before a character that is no ASCII letter or digit stands for that character, and a
character without a meaning of its own stands for itself.

Escaping the brackets makes `R` stand for itself when every other character of `R` has no
meaning of its own, and, for a return type without a backslash, only then
(`literal_escapeBrackets_iff`). A return type such as `java.util.List<?>`, which the scanner
records for a method returning a wildcard list, keeps its `.` and `?`: its look-behind
stands for no literal string at all.

* `literal_escaped_append`: a run of escaped characters without a meaning of their own reads
  as those characters, whatever follows;
* `mem_dedupStrings`: dropping repeats keeps every alternative;
* `callPattern_lookbehind_literal`: every target has its alternative in the pattern, and
  what its look-behind stands for.
-/
namespace Lineage

namespace Pcre

/-- The characters with a meaning of their own outside a class of a Perl-style pattern:
`\ ^ $ . | ? * + ( ) [ {`. A `]` or `}` alone stands for itself. -/
def isSpecial (c : Char) : Bool :=
  c == '\\' || c == '^' || c == '$' || c == '.' || c == '|' || c == '?' || c == '*' ||
    c == '+' || c == '(' || c == ')' || c == '[' || c == '{'

/-- The string that a pattern text stands for when it is a run of literal characters: a
backslash before a character that is no ASCII letter or digit stands for that character, a
character without a meaning of its own stands for itself; `none` for any other text. -/
def literal : List Char → Option (List Char)
  | [] => some []
  | c :: rest =>
    if c = '\\' then
      match rest with
      | d :: rest' => if d.isAlphanum then none else (literal rest').map (d :: ·)
      | [] => none
    else if isSpecial c then none else (literal rest).map (c :: ·)

theorem literal_escape (d : Char) (rest : List Char) (hd : d.isAlphanum = false) :
    literal ('\\' :: d :: rest) = (literal rest).map (d :: ·) := by
  simp [literal, hd]

theorem literal_plain {c : Char} (rest : List Char) (hc : isSpecial c = false) :
    literal (c :: rest) = (literal rest).map (c :: ·) := by
  have hne : c ≠ '\\' := by
    rintro rfl
    cases hc
  rw [literal.eq_def]
  dsimp only
  rw [if_neg hne, if_neg (by simp [hc])]

theorem literal_special {c : Char} (rest : List Char) (hne : c ≠ '\\') (hc : isSpecial c = true) :
    literal (c :: rest) = none := by
  rw [literal.eq_def]
  dsimp only
  rw [if_neg hne, if_pos hc]

end Pcre

namespace Language

/-- A character as `escapeBrackets` writes it. -/
def escapeChar (c : Char) : List Char :=
  (if c == '[' then "\\[" else if c == ']' then "\\]" else c.toString).toList

theorem toList_escapeBrackets (s : String) :
    (escapeBrackets s).toList = s.toList.flatMap escapeChar := by
  rw [escapeBrackets, String.toList_join, List.flatMap_map]
  rfl

theorem escapeChar_open : escapeChar '[' = ['\\', '['] := rfl

theorem escapeChar_close : escapeChar ']' = ['\\', ']'] := rfl

theorem escapeChar_of_ne {c : Char} (ho : c ≠ '[') (hc : c ≠ ']') : escapeChar c = [c] := by
  simp [escapeChar, ho, hc]

/-- A run of brackets and characters without a meaning of their own, escaped, reads as
itself, whatever follows it. -/
theorem literal_escaped_append :
    ∀ (pre rest : List Char), (∀ c ∈ pre, c = '[' ∨ Pcre.isSpecial c = false) →
      Pcre.literal (pre.flatMap escapeChar ++ rest) = (Pcre.literal rest).map (pre ++ ·)
  | [], rest, _ => by simp
  | c :: pre, rest, hpre => by
    have hrest := literal_escaped_append pre rest fun x hx => hpre x (List.mem_cons_of_mem c hx)
    rw [List.flatMap_cons, List.append_assoc]
    by_cases ho : c = '['
    · subst ho
      rw [escapeChar_open, List.cons_append, List.cons_append, List.nil_append,
        Pcre.literal_escape _ _ rfl, hrest, Option.map_map]
      rfl
    · by_cases hc : c = ']'
      · subst hc
        rw [escapeChar_close, List.cons_append, List.cons_append, List.nil_append,
          Pcre.literal_escape _ _ rfl, hrest, Option.map_map]
        rfl
      · have hplain : Pcre.isSpecial c = false :=
          (hpre c List.mem_cons_self).resolve_left ho
        rw [escapeChar_of_ne ho hc, List.singleton_append, Pcre.literal_plain _ hplain, hrest,
          Option.map_map]
        rfl

/-- An escaped text without backslashes that reads as itself holds no character with a
meaning of its own but `[`. -/
theorem plain_of_literal_escaped :
    ∀ (l : List Char), '\\' ∉ l → Pcre.literal (l.flatMap escapeChar) = some l →
      ∀ c ∈ l, c = '[' ∨ Pcre.isSpecial c = false
  | [], _, _ => by simp
  | c :: l, hl, hread => by
    have hnot : '\\' ∉ l := fun h => hl (List.mem_cons_of_mem c h)
    rw [List.flatMap_cons] at hread
    -- the first character reads as itself, and the rest as the rest
    have hfirst : (c = '[' ∨ Pcre.isSpecial c = false) ∧
        Pcre.literal (l.flatMap escapeChar) = some l := by
      by_cases ho : c = '['
      · subst ho
        rw [escapeChar_open, List.cons_append, List.cons_append, List.nil_append,
          Pcre.literal_escape _ _ rfl] at hread
        obtain ⟨r, hr, hrl⟩ := Option.map_eq_some_iff.1 hread
        exact ⟨.inl rfl, by rw [hr, (List.cons.inj hrl).2]⟩
      · by_cases hc : c = ']'
        · subst hc
          rw [escapeChar_close, List.cons_append, List.cons_append, List.nil_append,
            Pcre.literal_escape _ _ rfl] at hread
          obtain ⟨r, hr, hrl⟩ := Option.map_eq_some_iff.1 hread
          exact ⟨.inr rfl, by rw [hr, (List.cons.inj hrl).2]⟩
        · have hback : c ≠ '\\' := fun h => hl (h ▸ List.mem_cons_self)
          rw [escapeChar_of_ne ho hc, List.singleton_append] at hread
          cases hs : Pcre.isSpecial c
          · rw [Pcre.literal_plain _ hs] at hread
            obtain ⟨r, hr, hrl⟩ := Option.map_eq_some_iff.1 hread
            exact ⟨.inr rfl, by rw [hr, (List.cons.inj hrl).2]⟩
          · rw [Pcre.literal_special _ hback hs] at hread
            cases hread
    intro x hx
    rcases List.mem_cons.1 hx with rfl | hx
    · exact hfirst.1
    · exact plain_of_literal_escaped l hnot hfirst.2 x hx

/-- The look-behind text of a return type without backslashes stands for the return type
exactly when every character of it is `[` or has no meaning of its own. -/
theorem literal_escapeBrackets_iff (s : String) (hs : '\\' ∉ s.toList) :
    Pcre.literal (escapeBrackets s).toList = some s.toList ↔
      ∀ c ∈ s.toList, c = '[' ∨ Pcre.isSpecial c = false := by
  rw [toList_escapeBrackets]
  constructor
  · exact plain_of_literal_escaped s.toList hs
  · intro hplain
    simpa [Pcre.literal] using literal_escaped_append s.toList [] hplain

/-- An array type reads as itself once its brackets are escaped. -/
example : Pcre.literal (escapeBrackets "int[]").toList = some "int[]".toList := by decide +kernel

/-- Dropping repeats keeps every element. -/
theorem mem_dedupStrings {x : String} {xs : List String} (hx : x ∈ xs) :
    x ∈ dedupStrings xs := by
  unfold dedupStrings
  -- an element met, or still to come, stays in the accumulated list
  suffices h : ∀ (ys acc : List String), x ∈ acc ∨ x ∈ ys →
      x ∈ ys.foldl (fun acc x => if acc.contains x then acc else acc ++ [x]) acc from
    h xs [] (.inr hx)
  intro ys
  induction ys with
  | nil => simp
  | cons y ys ih =>
    intro acc hxy
    rw [List.foldl_cons]
    apply ih
    rcases hxy with hacc | hyy
    · left
      split <;> simp [hacc]
    · rcases List.mem_cons.1 hyy with rfl | hys
      · left
        split
        · rename_i hcont
          simpa using hcont
        · simp
      · exact .inr hys

end Language

/-- Every call target has its alternative `(?<!E )name` among the alternatives of the Java
call pattern, where `E` is its return type with each bracket escaped; and such a look-behind
text, for a return type without backslashes, stands for the return type exactly when every
character of the return type but `[` has no meaning of its own in a Perl-style pattern. -/
theorem callPattern_lookbehind_literal (targets : List CallTarget) :
    (∃ alts, Language.java.callPattern targets = "\\b(" ++ "|".intercalate alts ++ ")\\s*\\(" ∧
      ∀ t ∈ targets, "(?<!" ++ Language.escapeBrackets (t.returnType.getD "") ++ " )" ++ t.name ∈
        alts) ∧
    ∀ R : String, '\\' ∉ R.toList →
      (Pcre.literal (Language.escapeBrackets R).toList = some R.toList ↔
        ∀ c ∈ R.toList, c = '[' ∨ Pcre.isSpecial c = false) := by
  refine ⟨⟨_, rfl, fun t ht => Language.mem_dedupStrings (List.mem_map_of_mem ht)⟩,
    Language.literal_escapeBrackets_iff⟩

/-- Two targets, one returning an array: each alternative shuts out its own declaration. -/
example : Language.java.callPattern [⟨"area", some "double"⟩, ⟨"points", some "int[]"⟩] =
    "\\b((?<!double )area|(?<!int\\[\\] )points)\\s*\\(" := by decide

/-- The return type `java.util.List<?>`, which the scanner records for a method that returns
a wildcard list, has a look-behind text that stands for no literal string: its `?` keeps its
meaning. -/
theorem wildcard_lookbehind_not_literal :
    Pcre.literal (Language.escapeBrackets "java.util.List<?>").toList ≠
      some "java.util.List<?>".toList := by
  have hchars : "java.util.List<?>".toList =
      ['j', 'a', 'v', 'a', '.', 'u', 't', 'i', 'l', '.', 'L', 'i', 's', 't', '<', '?', '>'] := rfl
  have hback : '\\' ∉ "java.util.List<?>".toList := by
    rw [hchars]
    decide
  intro hread
  have hplain :=
    ((callPattern_lookbehind_literal []).2 _ hback).1 hread '?' (by rw [hchars]; decide)
  exact absurd hplain (by decide)

end Lineage
