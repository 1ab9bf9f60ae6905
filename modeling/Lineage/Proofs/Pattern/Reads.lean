import Lineage.Proofs.Pattern.Search
import Lineage.Proofs.Pattern.CharSet
/-!
What every match of a pattern reads.

`Pattern.ReadsSome P p` reads the pattern without a text: it holds when every way through `p`
reads some character that satisfies `P`. A sequence needs one of its parts to read one, an
alternation both of its branches; a repetition, an assertion and the empty pattern may read
nothing at all, and a balanced expression always reads its opening bracket first. It is the
dual of a pattern's nullability, and like it is proved right against the matching relation
by induction over a match (`Pattern.Matches.readsSome`).

The searches are sound (`Program.searchAt_sound`), so each match a search or a pass over all
matches reports (`Program.mem_findAll_matches`) reads such a character between its ends.
-/
namespace Lineage

namespace CharSet

theorem Sub.mono {s : CharSet} {P Q : Char → Prop} (h : s.Sub P) (hPQ : ∀ c, P c → Q c) :
    s.Sub Q :=
  fun r hr c h1 h2 => hPQ c (h r hr c h1 h2)

end CharSet

/-- An expression balanced at depth zero starts with its opening bracket, and goes on past
it. -/
theorem balancedStop_start {text : ByteArray} {o c : Char} {limit fuel pos stop : Nat}
    (h : balancedStop text o c limit fuel 0 pos = some stop) :
    ∃ w, Utf8.charAt? text pos = some (o, w) ∧ pos + w ≤ stop := by
  cases fuel with
  | zero => simp [balancedStop] at h
  | succ fuel =>
    unfold balancedStop at h
    split at h
    · cases h
    · rename_i ch w hch
      by_cases ho : ch = o
      · subst ho
        rw [if_pos (beq_self_eq_true ch)] at h
        split at h
        · cases h
        · exact ⟨w, hch, Nat.le_of_lt (lt_of_balancedStop h)⟩
      · -- at depth zero any other character ends the expression unread
        rw [if_neg (by simpa using ho)] at h
        simp at h

namespace Pattern

variable {P : Char → Prop}

/-- Every match of the pattern reads a character that satisfies `P`. -/
def ReadsSome (P : Char → Prop) : Pattern → Prop
  | empty | star _ _ | wordBoundary | lineStart => False
  | chars s => s.Sub P
  | seq p q => ReadsSome P p ∨ ReadsSome P q
  | alt p q => ReadsSome P p ∧ ReadsSome P q
  | group _ p => ReadsSome P p
  | balanced o _ _ => P o

/-- A match of a pattern that reads some character satisfying `P` holds one between its
ends. -/
theorem Matches.readsSome {text : ByteArray} {p : Pattern} {i j : Nat}
    (h : Matches text p i j) (hp : ReadsSome P p) :
    ∃ k c w, i ≤ k ∧ k + w ≤ j ∧ Utf8.charAt? text k = some (c, w) ∧ P c := by
  induction h with
  | empty => exact hp.elim
  | chars hc hs => exact ⟨_, _, _, Nat.le_refl _, Nat.le_refl _, hc, hp.mem hs⟩
  | seq h₁ h₂ ih₁ ih₂ =>
    rcases hp with hp | hp
    · obtain ⟨k, c, w, hik, hkj, hc, hP⟩ := ih₁ hp
      exact ⟨k, c, w, hik, Nat.le_trans hkj h₂.le, hc, hP⟩
    · obtain ⟨k, c, w, hik, hkj, hc, hP⟩ := ih₂ hp
      exact ⟨k, c, w, Nat.le_trans h₁.le hik, hkj, hc, hP⟩
  | altLeft _ ih => exact ih hp.1
  | altRight _ ih => exact ih hp.2
  | starNil => exact hp.elim
  | starCons => exact hp.elim
  | group _ ih => exact ih hp
  | wordBoundary => exact hp.elim
  | lineStart => exact hp.elim
  | balanced hb =>
    obtain ⟨w, hc, hw⟩ := balancedStop_start hb
    exact ⟨_, _, w, Nat.le_refl _, hw, hc, hp⟩

/-- A literal reads its first character. -/
theorem readsSome_lit {s : String} {c : Char} {cs : List Char} (hs : s.toList = c :: cs)
    (hc : P c) : ReadsSome P (lit s) := by
  have hfirst : ReadsSome P (chars (CharSet.range c c)) :=
    (CharSet.range_self_sub c).mono fun _ h => h ▸ hc
  unfold lit
  rw [hs, List.foldr_cons]
  split
  · exact hfirst
  · exact Or.inl hfirst

theorem readsSome_alts :
    ∀ {ps : List Pattern}, (∀ p ∈ ps, ReadsSome P p) → ReadsSome P (alts ps)
  | [], _ => fun r hr => absurd hr (by simp)
  | [p], h => h p (List.mem_singleton_self p)
  | p :: q :: ps, h =>
    ⟨h p List.mem_cons_self, readsSome_alts fun r hr => h r (List.mem_cons_of_mem p hr)⟩

/-- Every character a match of the pattern reads satisfies `P`. A balanced expression is left
out: it reads its brackets whatever `P` says. -/
def ReadsOnly (P : Char → Prop) : Pattern → Prop
  | empty | wordBoundary | lineStart => True
  | chars s => s.Sub P
  | seq p q | alt p q => ReadsOnly P p ∧ ReadsOnly P q
  | star p _ | group _ p => ReadsOnly P p
  | balanced _ _ _ => False

/-- A match of a pattern that reads only characters satisfying `P` covers each of its offsets
with one such character: the characters it reads tile it. -/
theorem Matches.readsOnly {text : ByteArray} {p : Pattern} {i j : Nat}
    (h : Matches text p i j) (hp : ReadsOnly P p) :
    ∀ q, i ≤ q → q < j → ∃ k c w, k ≤ q ∧ q < k + w ∧ Utf8.charAt? text k = some (c, w) ∧ P c := by
  induction h with
  | empty => intro q h₁ h₂; omega
  | chars hc hs => exact fun q h₁ h₂ => ⟨_, _, _, h₁, h₂, hc, hp.mem hs⟩
  | @seq _ _ _ k _ _ _ ih₁ ih₂ =>
    intro q h₁ h₂
    rcases Nat.lt_or_ge q k with hq | hq
    · exact ih₁ hp.1 q h₁ hq
    · exact ih₂ hp.2 q hq h₂
  | altLeft _ ih => exact ih hp.1
  | altRight _ ih => exact ih hp.2
  | starNil => intro q h₁ h₂; omega
  | @starCons _ _ _ k _ _ _ ih₁ ih₂ =>
    intro q h₁ h₂
    rcases Nat.lt_or_ge q k with hq | hq
    · exact ih₁ hp q h₁ hq
    · exact ih₂ hp q hq h₂
  | group _ ih => exact ih hp
  | wordBoundary => intro q h₁ h₂; omega
  | lineStart => intro q h₁ h₂; omega
  | balanced => exact hp.elim

/-- A literal reads only its characters. -/
theorem readsOnly_lit {s : String} (hs : ∀ c ∈ s.toList, P c) : ReadsOnly P (lit s) := by
  unfold lit
  generalize s.toList = l at hs
  induction l with
  | nil => trivial
  | cons c cs ih =>
    have hc : ReadsOnly P (chars (CharSet.range c c)) :=
      (CharSet.range_self_sub c).mono fun _ h => h ▸ hs c List.mem_cons_self
    rw [List.foldr_cons]
    split
    · exact hc
    · exact ⟨hc, ih fun d hd => hs d (List.mem_cons_of_mem c hd)⟩

end Pattern

namespace Program

/-- Each match of a pass over all matches is one of the pattern. -/
theorem findAll_go_matches {p : Pattern} {text : ByteArray} :
    ∀ {fuel pos : Nat} {m : Match}, m ∈ findAll.go p.compile text fuel pos →
      Pattern.Matches text p m.start m.stop
  | 0, _, _, h => by simp [findAll.go] at h
  | fuel + 1, pos, m, h => by
    unfold findAll.go at h
    split at h
    · simp at h
    · rename_i m' hm'
      rcases List.mem_cons.1 h with rfl | h
      · exact (searchAt_sound hm').2
      · exact findAll_go_matches h

theorem mem_findAll_matches {p : Pattern} {text : ByteArray} {m : Match}
    (h : m ∈ p.compile.findAll text) : Pattern.Matches text p m.start m.stop :=
  findAll_go_matches h

end Program

end Lineage
