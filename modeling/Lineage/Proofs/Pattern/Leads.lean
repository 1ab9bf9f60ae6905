import Lineage.Proofs.Pattern.Reads
/-!
Where a match starts to show, and how it ends.

More readings of a pattern without a text, beside `Pattern.ReadsSome`:

* `Pattern.MustLead P p`: every match of `p` reads blanks and then a character that satisfies
  `P` (`Pattern.Matches.mustLead`). `Pattern.MayLead P p` also allows a match of blanks only
  (`Pattern.Matches.mayLead`). A sequence must lead when its first part must, or when its
  first part may and its second must.
* `Pattern.EndsWith P p`: every match of `p` ends with a character that satisfies `P`
  (`Pattern.Matches.endsWith`). A sequence ends as its last part does.
* `Pattern.StartsWith P p`: every match of `p` that reads something reads a character that
  satisfies `P` where it starts, with no blanks before it (`Pattern.Matches.startsWith`).
* `Pattern.OpensWith w p`: `p` is `w` followed by more, so every match of `p` reads a match
  of `w` where it starts (`Pattern.Matches.opensWith`).

The blanks before the leading character are read by `Utf8.BlankRun`, one blank character
after the other, as trimming reads them.
-/
namespace Lineage

namespace Utf8

/-- Only blank characters, one after the other, stand between offsets `i` and `k`. -/
inductive BlankRun (text : ByteArray) : Nat → Nat → Prop
  | nil (i : Nat) : BlankRun text i i
  | cons {i k w : Nat} {c : Char} : charAt? text i = some (c, w) → Text.isBlank c = true →
      BlankRun text (i + w) k → BlankRun text i k

variable {text : ByteArray} {P : Char → Prop}

theorem BlankRun.le {i k : Nat} (h : BlankRun text i k) : i ≤ k := by
  induction h with
  | nil => exact Nat.le_refl _
  | cons _ _ _ ih => omega

theorem BlankRun.trans {i k j : Nat} (h₁ : BlankRun text i k) (h₂ : BlankRun text k j) :
    BlankRun text i j := by
  induction h₁ with
  | nil => exact h₂
  | cons hc hb _ ih => exact .cons hc hb (ih h₂)

/-- From `i` the text reads blanks up to a character that satisfies `P` and ends by `j`. -/
def LeadsWith (P : Char → Prop) (text : ByteArray) (i j : Nat) : Prop :=
  ∃ k c w, BlankRun text i k ∧ charAt? text k = some (c, w) ∧ P c ∧ k + w ≤ j

theorem LeadsWith.mono {i j j' : Nat} (h : LeadsWith P text i j) (hj : j ≤ j') :
    LeadsWith P text i j' := by
  obtain ⟨k, c, w, hrun, hc, hP, hkw⟩ := h
  exact ⟨k, c, w, hrun, hc, hP, Nat.le_trans hkw hj⟩

theorem BlankRun.leadsWith {i k j : Nat} (h₁ : BlankRun text i k) (h₂ : LeadsWith P text k j) :
    LeadsWith P text i j := by
  obtain ⟨k', c, w, hrun, hc, hP, hkw⟩ := h₂
  exact ⟨k', c, w, h₁.trans hrun, hc, hP, hkw⟩

end Utf8

namespace Pattern

variable {P : Char → Prop}

/-- Every match of the pattern reads only blanks, or blanks and then a character that
satisfies `P`. What a sequence reads after such a character is free, so a balanced expression
needs only its opening bracket to satisfy `P`. -/
def MayLead (P : Char → Prop) : Pattern → Prop
  | empty | wordBoundary | lineStart => True
  | chars s => s.Sub fun c => Text.isBlank c = true ∨ P c
  | seq p q | alt p q => MayLead P p ∧ MayLead P q
  | star p _ | group _ p => MayLead P p
  | balanced o _ _ => P o

/-- Every match of the pattern reads blanks and then a character that satisfies `P`. -/
def MustLead (P : Char → Prop) : Pattern → Prop
  | empty | star _ _ | wordBoundary | lineStart => False
  | chars s => s.Sub P
  | seq p q => MustLead P p ∨ (MayLead P p ∧ MustLead P q)
  | alt p q => MustLead P p ∧ MustLead P q
  | group _ p => MustLead P p
  | balanced o _ _ => P o

/-- Every match of the pattern ends with a character that satisfies `P`. How a balanced
expression ends is not read here. -/
def EndsWith (P : Char → Prop) : Pattern → Prop
  | chars s => s.Sub P
  | seq _ q => EndsWith P q
  | alt p q => EndsWith P p ∧ EndsWith P q
  | group _ p => EndsWith P p
  | empty | star _ _ | wordBoundary | lineStart | balanced .. => False

variable {text : ByteArray}

/-- A match of a pattern that may lead reads blanks only, or leads. -/
theorem Matches.mayLead {p : Pattern} {i j : Nat} (h : Matches text p i j) (hp : MayLead P p) :
    Utf8.BlankRun text i j ∨ Utf8.LeadsWith P text i j := by
  induction h with
  | empty i => exact .inl (.nil i)
  | chars hc hs =>
    rcases hp.mem hs with hb | hP
    · exact .inl (.cons hc hb (.nil _))
    · exact .inr ⟨_, _, _, .nil _, hc, hP, Nat.le_refl _⟩
  | seq _ h₂ ih₁ ih₂ =>
    rcases ih₁ hp.1 with hb₁ | hl₁
    · rcases ih₂ hp.2 with hb₂ | hl₂
      · exact .inl (hb₁.trans hb₂)
      · exact .inr (hb₁.leadsWith hl₂)
    · exact .inr (hl₁.mono h₂.le)
  | altLeft _ ih => exact ih hp.1
  | altRight _ ih => exact ih hp.2
  | starNil _ _ i => exact .inl (.nil i)
  | starCons _ h₂ ih₁ ih₂ =>
    rcases ih₁ hp with hb₁ | hl₁
    · rcases ih₂ hp with hb₂ | hl₂
      · exact .inl (hb₁.trans hb₂)
      · exact .inr (hb₁.leadsWith hl₂)
    · exact .inr (hl₁.mono h₂.le)
  | group _ ih => exact ih hp
  | wordBoundary => exact .inl (.nil _)
  | lineStart => exact .inl (.nil _)
  | balanced hb =>
    obtain ⟨w, hc, hw⟩ := balancedStop_start hb
    exact .inr ⟨_, _, w, .nil _, hc, hp, hw⟩

/-- A match of a pattern that must lead leads. -/
theorem Matches.mustLead {p : Pattern} {i j : Nat} (h : Matches text p i j) (hp : MustLead P p) :
    Utf8.LeadsWith P text i j := by
  induction h with
  | empty => exact hp.elim
  | chars hc hs => exact ⟨_, _, _, .nil _, hc, hp.mem hs, Nat.le_refl _⟩
  | seq h₁ h₂ ih₁ ih₂ =>
    rcases hp with hp₁ | ⟨hp₁, hp₂⟩
    · exact (ih₁ hp₁).mono h₂.le
    · -- the first part reads blanks only, or already leads
      rcases h₁.mayLead hp₁ with hb | hl
      · exact hb.leadsWith (ih₂ hp₂)
      · exact hl.mono h₂.le
  | altLeft _ ih => exact ih hp.1
  | altRight _ ih => exact ih hp.2
  | starNil => exact hp.elim
  | starCons => exact hp.elim
  | group _ ih => exact ih hp
  | wordBoundary => exact hp.elim
  | lineStart => exact hp.elim
  | balanced hb =>
    obtain ⟨w, hc, hw⟩ := balancedStop_start hb
    exact ⟨_, _, w, .nil _, hc, hp, hw⟩

/-- A match of a pattern that ends with `P` has a character satisfying `P` just before its
end. -/
theorem Matches.endsWith {p : Pattern} {i j : Nat} (h : Matches text p i j) (hp : EndsWith P p) :
    ∃ k c w, Utf8.charAt? text k = some (c, w) ∧ P c ∧ k + w = j := by
  induction h with
  | chars hc hs => exact ⟨_, _, _, hc, hp.mem hs, rfl⟩
  | seq _ _ _ ih₂ => exact ih₂ hp
  | altLeft _ ih => exact ih hp.1
  | altRight _ ih => exact ih hp.2
  | group _ ih => exact ih hp
  | _ => exact hp.elim

/-- Every match of the pattern that reads something starts with a character that satisfies
`P`: a sequence starts as its first part does, and as its second part too when the first may
read nothing. -/
def StartsWith (P : Char → Prop) : Pattern → Prop
  | empty | wordBoundary | lineStart => True
  | chars s => s.Sub P
  | seq p q => StartsWith P p ∧ (ReadsSome (fun _ => True) p ∨ StartsWith P q)
  | alt p q => StartsWith P p ∧ StartsWith P q
  | star p _ | group _ p => StartsWith P p
  | balanced o _ _ => P o

/-- A match of a pattern that starts with `P` and reads something reads a character that
satisfies `P` where it starts. -/
theorem Matches.startsWith {p : Pattern} {i j : Nat} (h : Matches text p i j)
    (hp : StartsWith P p) (hij : i < j) : ∃ c w, Utf8.charAt? text i = some (c, w) ∧ P c := by
  induction h with
  | empty => omega
  | chars hc hs => exact ⟨_, _, hc, hp.mem hs⟩
  | @seq _ _ i k j h₁ _ ih₁ ih₂ =>
    rcases Nat.lt_or_ge i k with hik | hki
    · exact ih₁ hp.1 hik
    · -- the first part read nothing, so it read no character either
      obtain rfl : k = i := Nat.le_antisymm hki h₁.le
      rcases hp.2 with hsome | hq
      · obtain ⟨k', c, w, hk', hkw, hc, -⟩ := h₁.readsSome hsome
        have := Utf8.charAt?_width_pos hc
        omega
      · exact ih₂ hq hij
  | altLeft _ ih => exact ih hp.1 hij
  | altRight _ ih => exact ih hp.2 hij
  | starNil => omega
  | @starCons _ _ i k j h₁ _ ih₁ ih₂ =>
    rcases Nat.lt_or_ge i k with hik | hki
    · exact ih₁ hp hik
    · obtain rfl : k = i := Nat.le_antisymm hki h₁.le
      exact ih₂ hp hij
  | group _ ih => exact ih hp hij
  | wordBoundary => omega
  | lineStart => omega
  | balanced hb =>
    obtain ⟨w, hc, -⟩ := balancedStop_start hb
    exact ⟨_, _, hc, hp⟩

/-! ### Literals and alternatives -/

@[simp] theorem mustLead_append {p q : Pattern} :
    MustLead P (p ++ q) ↔ MustLead P p ∨ (MayLead P p ∧ MustLead P q) := Iff.rfl

@[simp] theorem mayLead_append {p q : Pattern} : MayLead P (p ++ q) ↔ MayLead P p ∧ MayLead P q :=
  Iff.rfl

@[simp] theorem endsWith_append {p q : Pattern} : EndsWith P (p ++ q) ↔ EndsWith P q := Iff.rfl

@[simp] theorem mayLead_orElse {p q : Pattern} :
    MayLead P (p <|> q) ↔ MayLead P p ∧ MayLead P q := Iff.rfl

/-- A literal leads with its first character. -/
theorem mustLead_lit {s : String} {c : Char} {cs : List Char} (hs : s.toList = c :: cs)
    (hc : P c) : MustLead P (lit s) := by
  have hfirst : MustLead P (chars (CharSet.range c c)) :=
    (CharSet.range_self_sub c).mono fun _ h => h ▸ hc
  unfold lit
  rw [hs, List.foldr_cons]
  split
  · exact hfirst
  · exact Or.inl hfirst

/-- A literal whose characters all satisfy `P` may lead. -/
theorem mayLead_lit {s : String} (hs : ∀ c ∈ s.toList, P c) : MayLead P (lit s) := by
  unfold lit
  generalize s.toList = l at hs
  induction l with
  | nil => trivial
  | cons c cs ih =>
    have hc : MayLead P (chars (CharSet.range c c)) :=
      (CharSet.range_self_sub c).mono fun _ h => .inr (h ▸ hs c List.mem_cons_self)
    rw [List.foldr_cons]
    split
    · exact hc
    · exact ⟨hc, ih fun d hd => hs d (List.mem_cons_of_mem c hd)⟩

/-- A literal of one character ends with it. -/
theorem endsWith_lit {s : String} {c : Char} (hs : s.toList = [c]) (hc : P c) :
    EndsWith P (lit s) := by
  unfold lit
  rw [hs]
  exact (CharSet.range_self_sub c).mono fun _ h => h ▸ hc

/-- A literal starts with its first character. -/
theorem startsWith_lit {s : String} {c : Char} {cs : List Char} (hs : s.toList = c :: cs)
    (hc : P c) : StartsWith P (lit s) := by
  have hfirst : StartsWith P (chars (CharSet.range c c)) :=
    (CharSet.range_self_sub c).mono fun _ h => h ▸ hc
  unfold lit
  rw [hs, List.foldr_cons]
  split
  · exact hfirst
  · exact ⟨hfirst, .inl fun _ _ _ _ _ => trivial⟩

theorem startsWith_alts :
    ∀ {ps : List Pattern}, (∀ p ∈ ps, StartsWith P p) → StartsWith P (alts ps)
  | [], _ => fun r hr => absurd hr (by simp)
  | [p], h => h p (List.mem_singleton_self p)
  | p :: q :: ps, h =>
    ⟨h p List.mem_cons_self, startsWith_alts fun r hr => h r (List.mem_cons_of_mem p hr)⟩

/-! ### Openings -/

/-- `p` opens with `w`: it is `w`, or a sequence whose first part opens with `w`. -/
inductive OpensWith (w : Pattern) : Pattern → Prop
  | refl : OpensWith w w
  | seq {p : Pattern} (q : Pattern) : OpensWith w p → OpensWith w (.seq p q)

theorem OpensWith.readsSome {w p : Pattern} (hw : ReadsSome P w) (h : OpensWith w p) :
    ReadsSome P p := by
  induction h with
  | refl => exact hw
  | seq _ _ ih => exact .inl ih

/-- A pattern starts as its opening does, when the opening always reads something. -/
theorem OpensWith.startsWith {w p : Pattern} (hw : StartsWith P w)
    (hsome : ReadsSome (fun _ => True) w) (h : OpensWith w p) : StartsWith P p := by
  induction h with
  | refl => exact hw
  | seq _ hp ih => exact ⟨ih, .inl (hp.readsSome hsome)⟩

/-- A match of a pattern reads a match of its opening where it starts. -/
theorem Matches.opensWith {w p : Pattern} {i j : Nat} (h : Matches text p i j)
    (hw : OpensWith w p) : ∃ k, Matches text w i k := by
  induction hw generalizing j with
  | refl => exact ⟨j, h⟩
  | seq _ _ ih =>
    cases h with
    | seq h₁ _ => exact ih h₁

theorem mustLead_alts :
    ∀ {ps : List Pattern}, (∀ p ∈ ps, MustLead P p) → MustLead P (alts ps)
  | [], _ => fun r hr => absurd hr (by simp)
  | [p], h => h p (List.mem_singleton_self p)
  | p :: q :: ps, h =>
    ⟨h p List.mem_cons_self, mustLead_alts fun r hr => h r (List.mem_cons_of_mem p hr)⟩

theorem mayLead_alts :
    ∀ {ps : List Pattern}, (∀ p ∈ ps, MayLead P p) → MayLead P (alts ps)
  | [], _ => fun r hr => absurd hr (by simp)
  | [p], h => h p (List.mem_singleton_self p)
  | p :: q :: ps, h =>
    ⟨h p List.mem_cons_self, mayLead_alts fun r hr => h r (List.mem_cons_of_mem p hr)⟩

theorem endsWith_alts :
    ∀ {ps : List Pattern}, (∀ p ∈ ps, EndsWith P p) → EndsWith P (alts ps)
  | [], _ => fun r hr => absurd hr (by simp)
  | [p], h => h p (List.mem_singleton_self p)
  | p :: q :: ps, h =>
    ⟨h p List.mem_cons_self, endsWith_alts fun r hr => h r (List.mem_cons_of_mem p hr)⟩

end Pattern

end Lineage
