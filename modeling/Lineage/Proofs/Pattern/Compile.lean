import Lineage.Pattern.Search
import Lineage.Proofs.Text.Utf8
import Mathlib.Tactic.Set
/-!
Compiled patterns read what their patterns read.

`Pattern.Matches text p i j` says that `p` reads the text from offset `i` to offset `j` in
one of its ways: the meaning of a pattern, with no preference among the ways. The machine
that runs a compiled pattern moves a `Thread` (an instruction, an offset and the slots) by
`Thread.Step`; `Thread.Path` counts steps and bounds the instructions they are taken at.

`Pattern.Captures` is the same reading with the slots carried along: a group writes its start
and stop into the two slots its name keeps among the group names (`Pattern.groupSlot`).

`emit` lays a pattern out as a stretch of instructions entered at its first and left at the
offset just past it. Every instruction it lays down goes on only to instructions of the
stretch or to its exit, never accepts, and records no offset of the whole match
(`emitted_emit`). So a run of steps from the entry of the stretch to its exit splits, at
the first exit of each inner stretch, into runs of the parts, and is a way of reading the
pattern with the slots the run leaves (`emit_captures`). A group numbered by the names seen
so far keeps that number among all the names (`groupSlot_groupNumber`). A whole compiled
pattern records its start, runs its stretch and records its stop before `accept`
(`compile_captures`): every run of a compiled pattern from its first instruction to `accept`
records a start and a stop between which the pattern matches (`compile_sound`).
-/
namespace Lineage

namespace Pattern

/-- The ways a pattern reads a text between two offsets: a character set reads one
character of the set, a repetition reads its pattern any number of times, an assertion reads
nothing where it holds, and a balanced expression reads up to its closing character. -/
inductive Matches (text : ByteArray) : Pattern → Nat → Nat → Prop
  | empty (i : Nat) : Matches text .empty i i
  | chars {s : CharSet} {i w : Nat} {c : Char} : Utf8.charAt? text i = some (c, w) →
      s.mem c = true → Matches text (.chars s) i (i + w)
  | seq {p q : Pattern} {i k j : Nat} : Matches text p i k → Matches text q k j →
      Matches text (.seq p q) i j
  | altLeft {p q : Pattern} {i j : Nat} : Matches text p i j → Matches text (.alt p q) i j
  | altRight {p q : Pattern} {i j : Nat} : Matches text q i j → Matches text (.alt p q) i j
  | starNil (p : Pattern) (greedy : Bool) (i : Nat) : Matches text (.star p greedy) i i
  | starCons {p : Pattern} {greedy : Bool} {i k j : Nat} : Matches text p i k →
      Matches text (.star p greedy) k j → Matches text (.star p greedy) i j
  | group {name : String} {p : Pattern} {i j : Nat} : Matches text p i j →
      Matches text (.group name p) i j
  | wordBoundary {i : Nat} : Text.isWordBoundary text i = true →
      Matches text .wordBoundary i i
  | lineStart {i : Nat} : isLineStart text i = true → Matches text .lineStart i i
  | balanced {o c : Char} {limit i j : Nat} :
      balancedStop text o c limit (text.size - i + 1) 0 i = some j →
      Matches text (.balanced o c limit) i j

end Pattern

/-- A balanced expression reads at least one character. -/
theorem lt_of_balancedStop {text : ByteArray} {o c : Char} {limit : Nat} :
    ∀ {fuel depth pos stop : Nat}, balancedStop text o c limit fuel depth pos = some stop →
      pos < stop
  | 0, _, _, _, h => by simp [balancedStop] at h
  | fuel + 1, depth, pos, stop, h => by
    unfold balancedStop at h
    split at h
    · cases h
    · rename_i ch w hch
      have hw := Utf8.charAt?_width_pos hch
      split_ifs at h
      all_goals first
        | (cases h; omega)
        | exact Nat.lt_trans (Nat.lt_add_of_pos_right hw) (lt_of_balancedStop h)

namespace Pattern

variable {text : ByteArray}

/-- A match never reads backwards. -/
theorem Matches.le {p : Pattern} {i j : Nat} (h : Matches text p i j) : i ≤ j := by
  induction h with
  | chars => omega
  | seq _ _ ih₁ ih₂ => omega
  | starCons _ _ ih₁ ih₂ => omega
  | balanced h => exact Nat.le_of_lt (lt_of_balancedStop h)
  | _ => omega

/-- The slot where a group records its start, the next one holding its stop: `2k` for the
group numbered `k`, its place among `names` counting from 1, or the number after them. -/
def groupSlot (names : Array String) (name : String) : Nat :=
  2 * ((names.idxOf? name).getD names.size + 1)

/-- The ways a pattern reads a text between two offsets, as in `Matches`, together with the
slots before and after: a group records where it started and stopped in the slots its name
has among `names`, and nothing else writes a slot. -/
inductive Captures (text : ByteArray) (names : Array String) :
    Pattern → Nat → Nat → Array (Option Nat) → Array (Option Nat) → Prop
  | empty (i : Nat) (σ : Array (Option Nat)) : Captures text names .empty i i σ σ
  | chars {s : CharSet} {i w : Nat} {c : Char} {σ : Array (Option Nat)} :
      Utf8.charAt? text i = some (c, w) → s.mem c = true →
      Captures text names (.chars s) i (i + w) σ σ
  | seq {p q : Pattern} {i k j : Nat} {σ σ₁ σ₂ : Array (Option Nat)} :
      Captures text names p i k σ σ₁ → Captures text names q k j σ₁ σ₂ →
      Captures text names (.seq p q) i j σ σ₂
  | altLeft {p q : Pattern} {i j : Nat} {σ σ' : Array (Option Nat)} :
      Captures text names p i j σ σ' → Captures text names (.alt p q) i j σ σ'
  | altRight {p q : Pattern} {i j : Nat} {σ σ' : Array (Option Nat)} :
      Captures text names q i j σ σ' → Captures text names (.alt p q) i j σ σ'
  | starNil (p : Pattern) (greedy : Bool) (i : Nat) (σ : Array (Option Nat)) :
      Captures text names (.star p greedy) i i σ σ
  | starCons {p : Pattern} {greedy : Bool} {i k j : Nat} {σ σ₁ σ₂ : Array (Option Nat)} :
      Captures text names p i k σ σ₁ → Captures text names (.star p greedy) k j σ₁ σ₂ →
      Captures text names (.star p greedy) i j σ σ₂
  | group {name : String} {p : Pattern} {i j : Nat} {σ σ' : Array (Option Nat)} :
      Captures text names p i j (σ.setIfInBounds (groupSlot names name) (some i)) σ' →
      Captures text names (.group name p) i j σ
        (σ'.setIfInBounds (groupSlot names name + 1) (some j))
  | wordBoundary {i : Nat} {σ : Array (Option Nat)} : Text.isWordBoundary text i = true →
      Captures text names .wordBoundary i i σ σ
  | lineStart {i : Nat} {σ : Array (Option Nat)} : isLineStart text i = true →
      Captures text names .lineStart i i σ σ
  | balanced {o c : Char} {limit i j : Nat} {σ : Array (Option Nat)} :
      balancedStop text o c limit (text.size - i + 1) 0 i = some j →
      Captures text names (.balanced o c limit) i j σ σ

variable {names : Array String}

/-- Forgetting the slots, a way of reading with them is a match. -/
theorem Captures.matches {p : Pattern} {i j : Nat} {σ σ' : Array (Option Nat)}
    (h : Captures text names p i j σ σ') : Matches text p i j := by
  induction h with
  | empty i => exact .empty i
  | chars hc hs => exact .chars hc hs
  | seq _ _ ih₁ ih₂ => exact .seq ih₁ ih₂
  | altLeft _ ih => exact .altLeft ih
  | altRight _ ih => exact .altRight ih
  | starNil p greedy i => exact .starNil p greedy i
  | starCons _ _ ih₁ ih₂ => exact .starCons ih₁ ih₂
  | group _ ih => exact .group ih
  | wordBoundary h => exact .wordBoundary h
  | lineStart h => exact .lineStart h
  | balanced h => exact .balanced h

/-- No group writes slot `0` or `1`, where the whole match is recorded. -/
theorem Captures.getElem?_of_lt_two {p : Pattern} {i j : Nat} {σ σ' : Array (Option Nat)}
    (h : Captures text names p i j σ σ') {k : Nat} (hk : k < 2) : σ'[k]? = σ[k]? := by
  induction h with
  | seq _ _ ih₁ ih₂ => rw [ih₂, ih₁]
  | starCons _ _ ih₁ ih₂ => rw [ih₂, ih₁]
  | @group name _ _ _ _ _ _ ih =>
    have hslot : 2 ≤ groupSlot names name := by unfold groupSlot; omega
    rw [Array.getElem?_setIfInBounds, if_neg (by omega), ih, Array.getElem?_setIfInBounds,
      if_neg (by omega)]
  | altLeft _ ih => exact ih
  | altRight _ ih => exact ih
  | _ => rfl

theorem Captures.size_slots {p : Pattern} {i j : Nat} {σ σ' : Array (Option Nat)}
    (h : Captures text names p i j σ σ') : σ'.size = σ.size := by
  induction h with
  | seq _ _ ih₁ ih₂ => rw [ih₂, ih₁]
  | starCons _ _ ih₁ ih₂ => rw [ih₂, ih₁]
  | group _ ih => rw [Array.size_setIfInBounds, ih, Array.size_setIfInBounds]
  | altLeft _ ih => exact ih
  | altRight _ ih => exact ih
  | _ => rfl

end Pattern

/-- A thread of the machine: the instruction it is at, its offset, and its slots. -/
structure Thread where
  pc : Nat
  pos : Nat
  slots : Array (Option Nat)

namespace Thread

/-- One step of a thread through the instruction it is at. -/
inductive Step (code : Array Inst) (text : ByteArray) : Thread → Thread → Prop
  | chars {pc pos : Nat} {slots : Array (Option Nat)} {s : CharSet} {c : Char} {w : Nat} :
      code[pc]? = some (.chars s) → Utf8.charAt? text pos = some (c, w) → s.mem c = true →
      Step code text ⟨pc, pos, slots⟩ ⟨pc + 1, pos + w, slots⟩
  | splitFirst {pc pos : Nat} {slots : Array (Option Nat)} {a b : Nat} :
      code[pc]? = some (.split a b) → Step code text ⟨pc, pos, slots⟩ ⟨a, pos, slots⟩
  | splitSecond {pc pos : Nat} {slots : Array (Option Nat)} {a b : Nat} :
      code[pc]? = some (.split a b) → Step code text ⟨pc, pos, slots⟩ ⟨b, pos, slots⟩
  | jump {pc pos : Nat} {slots : Array (Option Nat)} {target : Nat} :
      code[pc]? = some (.jump target) → Step code text ⟨pc, pos, slots⟩ ⟨target, pos, slots⟩
  | save {pc pos : Nat} {slots : Array (Option Nat)} {k : Nat} :
      code[pc]? = some (.save k) →
      Step code text ⟨pc, pos, slots⟩ ⟨pc + 1, pos, slots.setIfInBounds k (some pos)⟩
  | wordBoundary {pc pos : Nat} {slots : Array (Option Nat)} :
      code[pc]? = some .wordBoundary → Text.isWordBoundary text pos = true →
      Step code text ⟨pc, pos, slots⟩ ⟨pc + 1, pos, slots⟩
  | lineStart {pc pos : Nat} {slots : Array (Option Nat)} :
      code[pc]? = some .lineStart → isLineStart text pos = true →
      Step code text ⟨pc, pos, slots⟩ ⟨pc + 1, pos, slots⟩
  | balanced {pc pos : Nat} {slots : Array (Option Nat)} {o c : Char} {limit stop : Nat} :
      code[pc]? = some (.balanced o c limit) →
      balancedStop text o c limit (text.size - pos + 1) 0 pos = some stop →
      Step code text ⟨pc, pos, slots⟩ ⟨pc + 1, stop, slots⟩

/-- `n` steps, each taken at an instruction in `[lo, hi)`. -/
inductive Path (code : Array Inst) (text : ByteArray) (lo hi : Nat) :
    Nat → Thread → Thread → Prop
  | refl (t : Thread) : Path code text lo hi 0 t t
  | step {n : Nat} {t u v : Thread} : lo ≤ t.pc → t.pc < hi → Step code text t u →
      Path code text lo hi n u v → Path code text lo hi (n + 1) t v

variable {code : Array Inst} {text : ByteArray} {t u v : Thread}

/-- A step is taken at an instruction of the code other than `accept`. -/
theorem Step.inst (h : Step code text t u) : ∃ inst, code[t.pc]? = some inst ∧ inst ≠ .accept := by
  cases h with
  | chars hpc => exact ⟨_, hpc, nofun⟩
  | splitFirst hpc => exact ⟨_, hpc, nofun⟩
  | splitSecond hpc => exact ⟨_, hpc, nofun⟩
  | jump hpc => exact ⟨_, hpc, nofun⟩
  | save hpc => exact ⟨_, hpc, nofun⟩
  | wordBoundary hpc => exact ⟨_, hpc, nofun⟩
  | lineStart hpc => exact ⟨_, hpc, nofun⟩
  | balanced hpc => exact ⟨_, hpc, nofun⟩

theorem Step.pc_lt (h : Step code text t u) : t.pc < code.size := by
  obtain ⟨_, hpc, -⟩ := h.inst
  exact (Array.getElem?_eq_some_iff.1 hpc).1

theorem Step.not_accept (h : Step code text t u) : code[t.pc]? ≠ some .accept := by
  obtain ⟨_, hpc, hne⟩ := h.inst
  rw [hpc]
  exact fun h => hne (Option.some.inj h)

/-- A step at a `split` goes on at one of its targets. -/
theorem Step.of_split {a b : Nat} (h : Step code text t u) (hpc : code[t.pc]? = some (.split a b)) :
    u = ⟨a, t.pos, t.slots⟩ ∨ u = ⟨b, t.pos, t.slots⟩ := by
  cases h <;> simp_all

theorem Step.of_jump {target : Nat} (h : Step code text t u)
    (hpc : code[t.pc]? = some (.jump target)) : u = ⟨target, t.pos, t.slots⟩ := by
  cases h <;> simp_all

theorem Step.of_save {k : Nat} (h : Step code text t u) (hpc : code[t.pc]? = some (.save k)) :
    u = ⟨t.pc + 1, t.pos, t.slots.setIfInBounds k (some t.pos)⟩ := by
  cases h <;> simp_all

theorem Step.of_chars {s : CharSet} (h : Step code text t u) (hpc : code[t.pc]? = some (.chars s)) :
    ∃ c w, Utf8.charAt? text t.pos = some (c, w) ∧ s.mem c = true ∧
      u = ⟨t.pc + 1, t.pos + w, t.slots⟩ := by
  cases h <;> simp_all

theorem Step.of_wordBoundary (h : Step code text t u) (hpc : code[t.pc]? = some .wordBoundary) :
    Text.isWordBoundary text t.pos = true ∧ u = ⟨t.pc + 1, t.pos, t.slots⟩ := by
  cases h <;> simp_all

theorem Step.of_lineStart (h : Step code text t u) (hpc : code[t.pc]? = some .lineStart) :
    isLineStart text t.pos = true ∧ u = ⟨t.pc + 1, t.pos, t.slots⟩ := by
  cases h <;> simp_all

theorem Step.of_balanced {o c : Char} {limit : Nat} (h : Step code text t u)
    (hpc : code[t.pc]? = some (.balanced o c limit)) :
    ∃ stop, balancedStop text o c limit (text.size - t.pos + 1) 0 t.pos = some stop ∧
      u = ⟨t.pc + 1, stop, t.slots⟩ := by
  cases h <;> simp_all

namespace Path

variable {lo hi n : Nat}

/-- A path that starts outside its bounds takes no step. -/
theorem eq_of_not_mem (h : Path code text lo hi n t v) (ht : t.pc < lo ∨ hi ≤ t.pc) : v = t := by
  cases h with
  | refl => rfl
  | step hlo hhi => omega

/-- A path stays where it is or takes a first step. -/
theorem eq_or_step (h : Path code text lo hi n t v) :
    v = t ∨ ∃ u m, n = m + 1 ∧ Step code text t u ∧ Path code text lo hi m u v := by
  cases h with
  | refl => exact .inl rfl
  | step _ _ hs rest => exact .inr ⟨_, _, rfl, hs, rest⟩

/-- A path that starts inside its bounds and ends outside takes a first step. -/
theorem first (h : Path code text lo hi n t v) (hlo : lo ≤ t.pc) (hhi : t.pc < hi)
    (hv : v.pc < lo ∨ hi ≤ v.pc) : ∃ u m, n = m + 1 ∧ Step code text t u ∧ Path code text lo hi m u v :=
  h.eq_or_step.resolve_left fun he => by rw [he] at hv; omega

/-- A path that starts in a stretch `[a, b]` out of which no step leads, and ends outside
`[a, b)`, reaches `b` first by steps taken in `[a, b)`. -/
theorem exit {a b : Nat}
    (hclosed : ∀ t u, a ≤ t.pc → t.pc < b → Step code text t u → a ≤ u.pc ∧ u.pc ≤ b)
    (h : Path code text lo hi n t v) (ha : a ≤ t.pc) (hb : t.pc ≤ b) (hv : v.pc < a ∨ b ≤ v.pc) :
    ∃ m u, m ≤ n ∧ u.pc = b ∧ Path code text a b m t u ∧ Path code text lo hi (n - m) u v := by
  induction h with
  | refl t => exact ⟨0, t, Nat.le_refl _, by omega, .refl t, .refl t⟩
  | @step n t u v hlo hhi hs rest ih =>
    by_cases htb : t.pc = b
    · exact ⟨0, t, Nat.zero_le _, htb, .refl t, .step hlo hhi hs rest⟩
    · -- the first step stays in `[a, b]`; the rest of the way reaches `b`
      obtain ⟨hua, hub⟩ := hclosed t u ha (by omega) hs
      obtain ⟨m, w, hm, hw, hpre, hpost⟩ := ih hua hub hv
      refine ⟨m + 1, w, by omega, hw, .step ha (by omega) hs hpre, ?_⟩
      rwa [show n + 1 - (m + 1) = n - m by omega]

/-- A path followed by one more step. -/
theorem snoc (h : Path code text lo hi n t u) (hs : Step code text u v) (hlo : lo ≤ u.pc)
    (hhi : u.pc < hi) : Path code text lo hi (n + 1) t v := by
  induction h with
  | refl t => exact .step hlo hhi hs (.refl v)
  | step hlo' hhi' hs' _ ih => exact .step hlo' hhi' hs' (ih hs hlo hhi)

/-- A path through the one instruction at `k`, whose every step goes on to `k + 1`, is that
step. -/
theorem single {k : Nat} (h : Path code text k (k + 1) n t v) (ht : t.pc = k) (hv : v.pc = k + 1)
    (hnext : ∀ u, Step code text t u → u.pc = k + 1) : Step code text t v := by
  obtain ⟨u, m, -, hs, rest⟩ := h.first (by omega) (by omega) (by omega)
  obtain rfl := rest.eq_of_not_mem (.inr (Nat.le_of_eq (hnext u hs).symm))
  exact hs

/-- A thread at `accept` takes no step. -/
theorem eq_of_accept (h : Path code text lo hi n t v) (ht : code[t.pc]? = some .accept) : v = t := by
  cases h with
  | refl => rfl
  | step _ _ hs => exact absurd ht hs.not_accept

/-- Steps keep the number of slots. -/
theorem size_slots (h : Path code text lo hi n t v) : v.slots.size = t.slots.size := by
  induction h with
  | refl => rfl
  | step _ _ hs _ ih =>
    rw [ih]
    cases hs <;> simp

end Path

end Thread

/-- An instruction at `pc` that goes on only to instructions in `[lo, hi]`, never accepts,
and records no offset of the whole match, which slots `0` and `1` hold. -/
def Inst.Inside (lo hi pc : Nat) : Inst → Prop
  | .split a b => lo ≤ a ∧ a ≤ hi ∧ lo ≤ b ∧ b ≤ hi
  | .jump target => lo ≤ target ∧ target ≤ hi
  | .save k => 2 ≤ k ∧ pc + 1 ≤ hi
  | .accept => False
  | _ => pc + 1 ≤ hi

theorem Inst.Inside.mono {lo hi lo' hi' pc : Nat} {inst : Inst} (h : inst.Inside lo hi pc)
    (hlo : lo' ≤ lo) (hhi : hi ≤ hi') : inst.Inside lo' hi' pc := by
  cases inst <;> simp only [Inst.Inside] at h ⊢ <;> omega

namespace Thread

variable {code : Array Inst} {text : ByteArray} {t u : Thread}

/-- A step at an instruction inside `[lo, hi]` stays in `[lo, hi]`. -/
theorem Step.inside {lo hi : Nat} {inst : Inst} (h : Step code text t u)
    (hpc : code[t.pc]? = some inst) (hin : inst.Inside lo hi t.pc) (hlo : lo ≤ t.pc) :
    lo ≤ u.pc ∧ u.pc ≤ hi := by
  cases h <;> simp_all [Inst.Inside] <;> omega

end Thread

/-- What appending a pattern's instructions to `code` made of it: the instructions before
stay, and each new one is inside the new stretch. -/
structure Emitted (code code' : Array Inst) : Prop where
  size_le : code.size ≤ code'.size
  getElem?_of_lt : ∀ i < code.size, code'[i]? = code[i]?
  inside : ∀ i, code.size ≤ i → i < code'.size →
    ∃ inst, code'[i]? = some inst ∧ inst.Inside code.size code'.size i

namespace Emitted

variable {code code' P : Array Inst} {text : ByteArray}

/-- In code that agrees with an emitted stretch, no step leads out of the stretch but to its
exit. -/
theorem closed (h : Emitted code code')
    (hP : ∀ i, code.size ≤ i → i < code'.size → P[i]? = code'[i]?) :
    ∀ t u, code.size ≤ t.pc → t.pc < code'.size → Thread.Step P text t u →
      code.size ≤ u.pc ∧ u.pc ≤ code'.size := by
  intro t u hlo hhi hs
  obtain ⟨inst, hinst, hin⟩ := h.inside t.pc hlo hhi
  exact hs.inside ((hP _ hlo hhi).trans hinst) hin hlo

theorem refl (code : Array Inst) : Emitted code code :=
  ⟨Nat.le_refl _, fun _ _ => rfl, fun _ h₁ h₂ => absurd h₂ (Nat.not_lt.2 h₁)⟩

theorem push {inst : Inst} (h : inst.Inside code.size (code.size + 1) code.size) :
    Emitted code (code.push inst) := by
  refine ⟨by simp, fun i hi => by rw [Array.getElem?_push, if_neg (by omega)], fun i h₁ h₂ => ?_⟩
  obtain rfl : i = code.size := by simp at h₂; omega
  exact ⟨inst, by simp, by simpa using h⟩

theorem trans {code'' : Array Inst} (h₁ : Emitted code code') (h₂ : Emitted code' code'') :
    Emitted code code'' := by
  refine ⟨Nat.le_trans h₁.size_le h₂.size_le, fun i hi => ?_, fun i hlo hhi => ?_⟩
  · rw [h₂.getElem?_of_lt i (by have := h₁.size_le; omega), h₁.getElem?_of_lt i hi]
  · by_cases hi : i < code'.size
    · obtain ⟨inst, hinst, hin⟩ := h₁.inside i hlo hi
      exact ⟨inst, (h₂.getElem?_of_lt i hi).trans hinst, hin.mono (Nat.le_refl _) h₂.size_le⟩
    · obtain ⟨inst, hinst, hin⟩ := h₂.inside i (by omega) hhi
      exact ⟨inst, hinst, hin.mono h₁.size_le (Nat.le_refl _)⟩

end Emitted

namespace Pattern

theorem emit_seq (p q : Pattern) (code : Array Inst) (names : Array String) :
    emit (.seq p q) code names = emit q (emit p code names).1 (emit p code names).2 := rfl

theorem emit_alt (p q : Pattern) (code : Array Inst) (names : Array String) :
    emit (.alt p q) code names =
      (let r := emit p (code.push (.split 0 0)) names
       let r' := emit q (r.1.push (.jump 0)) r.2
       ((r'.1.setIfInBounds code.size (.split (code.size + 1) (r.1.size + 1))).setIfInBounds
         r.1.size (.jump r'.1.size), r'.2)) := by
  simp only [emit, Array.size_setIfInBounds]

theorem emit_star (p : Pattern) (greedy : Bool) (code : Array Inst) (names : Array String) :
    emit (.star p greedy) code names =
      (let r := emit p (code.push (.split 0 0)) names
       ((r.1.push (.jump code.size)).setIfInBounds code.size
         (if greedy then .split (code.size + 1) (r.1.size + 1)
          else .split (r.1.size + 1) (code.size + 1)), r.2)) := by
  simp only [emit, Array.size_push]

theorem emit_group (name : String) (p : Pattern) (code : Array Inst) (names : Array String) :
    emit (.group name p) code names =
      (let g := groupNumber names name
       let r := emit p (code.push (.save (2 * g.1))) g.2
       (r.1.push (.save (2 * g.1 + 1)), r.2)) := rfl

theorem one_le_groupNumber (names : Array String) (name : String) :
    1 ≤ (groupNumber names name).1 := by
  unfold groupNumber
  split <;> omega

theorem idxOf?_eq_toList (names : Array String) (name : String) :
    names.idxOf? name = names.toList.idxOf? name := by
  rcases names with ⟨l⟩
  simp

/-- The first place of a name is kept when more names follow. -/
theorem idxOf?_of_isPrefixOf {l l' : List String} (h : l <+: l') {name : String} {k : Nat}
    (hk : l.idxOf? name = some k) : l'.idxOf? name = some k := by
  obtain ⟨rest, rfl⟩ := h
  obtain ⟨hlt, heq, hbefore⟩ := List.idxOf?_eq_some_iff.1 hk
  refine List.idxOf?_eq_some_iff.2 ⟨by simp; omega, ?_, fun j hj => ?_⟩
  · rw [List.getElem_append_left hlt, heq]
  · rw [List.getElem_append_left (by omega)]
    exact hbefore j hj

/-- Numbering a group only ever appends its name. -/
theorem isPrefixOf_groupNumber (names : Array String) (name : String) :
    names.toList <+: (groupNumber names name).2.toList := by
  unfold groupNumber
  split
  · exact List.prefix_refl _
  · simp

/-- Laying out a pattern only ever appends group names. -/
theorem names_prefix_emit : ∀ (p : Pattern) (code : Array Inst) (names : Array String),
    names.toList <+: (emit p code names).2.toList
  | .seq p q, code, names => by
    rw [emit_seq]
    exact (names_prefix_emit p code names).trans (names_prefix_emit q _ _)
  | .alt p q, code, names => by
    rw [emit_alt]
    exact (names_prefix_emit p _ names).trans (names_prefix_emit q _ _)
  | .star p greedy, code, names => by
    rw [emit_star]
    exact names_prefix_emit p _ names
  | .group name p, code, names => by
    rw [emit_group]
    exact (isPrefixOf_groupNumber names name).trans (names_prefix_emit p _ _)
  | .empty, _, _ | .chars _, _, _ | .wordBoundary, _, _ | .lineStart, _, _
  | .balanced _ _ _, _, _ => List.prefix_refl _

/-- The number a group gets from the names seen so far is the one its name keeps among all
the names registered after it. -/
theorem groupSlot_groupNumber {names final : Array String} {name : String}
    (h : (groupNumber names name).2.toList <+: final.toList) :
    2 * (groupNumber names name).1 = groupSlot final name := by
  unfold groupSlot
  rw [idxOf?_eq_toList]
  cases hk : names.idxOf? name with
  | some k =>
    simp only [groupNumber, hk] at h ⊢
    rw [idxOf?_eq_toList] at hk
    rw [idxOf?_of_isPrefixOf h hk]
    rfl
  | none =>
    simp only [groupNumber, hk] at h ⊢
    -- a new name is appended, so its first place is the old size
    rw [idxOf?_eq_toList, List.idxOf?_eq_none_iff] at hk
    have hnew : (names.push name).toList.idxOf? name = some names.size := by
      refine List.idxOf?_eq_some_iff.2 ⟨by simp, by simp, fun j hj heq => hk ?_⟩
      have hj' : j < names.toList.length := by simpa using hj
      rw [← heq]
      simp only [Array.toList_push, List.getElem_append_left hj']
      exact List.getElem_mem hj'
    rw [idxOf?_of_isPrefixOf h hnew]
    rfl

end Pattern

namespace Pattern

open Emitted in
/-- Every instruction a pattern lays down is inside its stretch. -/
theorem emitted_emit : ∀ (p : Pattern) (code : Array Inst) (names : Array String),
    Emitted code (emit p code names).1
  | .empty, code, _ => .refl code
  | .chars _, code, _ => .push (by simp [Inst.Inside])
  | .seq p q, code, names => by
    rw [emit_seq]
    exact (emitted_emit p code names).trans (emitted_emit q _ _)
  | .alt p q, code, names => by
    rw [emit_alt]
    dsimp only
    have hp := emitted_emit p (code.push (.split 0 0)) names
    have hq := emitted_emit q ((emit p (code.push (.split 0 0)) names).1.push (.jump 0))
      (emit p (code.push (.split 0 0)) names).2
    generalize emit p (code.push (.split 0 0)) names = r at hp hq
    generalize emit q (r.1.push (.jump 0)) r.2 = r' at hq
    obtain ⟨C₁, N₁⟩ := r
    obtain ⟨C₂, N₂⟩ := r'
    simp only at hp hq ⊢
    have h₁ := hp.size_le
    have h₂ := hq.size_le
    simp only [Array.size_push] at h₁ h₂
    -- the fork and the skip over the second branch, set last; the branches in between
    refine ⟨by simp; omega, fun i hi => ?_, fun i hlo hhi => ?_⟩
    · rw [Array.getElem?_setIfInBounds, if_neg (by omega), Array.getElem?_setIfInBounds,
        if_neg (by omega), hq.getElem?_of_lt i (by simp; omega), Array.getElem?_push,
        if_neg (by omega), hp.getElem?_of_lt i (by simp; omega), Array.getElem?_push,
        if_neg (by omega)]
    · simp only [Array.size_setIfInBounds] at hhi ⊢
      by_cases hs : i = C₁.size
      · subst hs
        refine ⟨.jump C₂.size, ?_, by simp only [Inst.Inside]; omega⟩
        simp [Array.getElem?_setIfInBounds_self]
        omega
      by_cases hk : i = code.size
      · subst hk
        refine ⟨.split (code.size + 1) (C₁.size + 1), ?_, by simp only [Inst.Inside]; omega⟩
        rw [Array.getElem?_setIfInBounds, if_neg (by omega), Array.getElem?_setIfInBounds_self,
          if_pos (by omega)]
      rw [Array.getElem?_setIfInBounds, if_neg (Ne.symm hs), Array.getElem?_setIfInBounds,
        if_neg (Ne.symm hk)]
      by_cases hi : i < C₁.size
      · obtain ⟨inst, hinst, hin⟩ := hp.inside i (by simp; omega) hi
        refine ⟨inst, ?_, hin.mono (by simp) (by omega)⟩
        rw [hq.getElem?_of_lt i (by simp; omega), Array.getElem?_push, if_neg hs, hinst]
      · obtain ⟨inst, hinst, hin⟩ := hq.inside i (by simp; omega) hhi
        exact ⟨inst, hinst, hin.mono (by simp; omega) (Nat.le_refl _)⟩
  | .star p greedy, code, names => by
    rw [emit_star]
    dsimp only
    have hp := emitted_emit p (code.push (.split 0 0)) names
    generalize emit p (code.push (.split 0 0)) names = r at hp
    obtain ⟨C₁, N₁⟩ := r
    simp only at hp ⊢
    have h₁ := hp.size_le
    simp only [Array.size_push] at h₁
    refine ⟨by simp; omega, fun i hi => ?_, fun i hlo hhi => ?_⟩
    · rw [Array.getElem?_setIfInBounds, if_neg (by omega), Array.getElem?_push, if_neg (by omega),
        hp.getElem?_of_lt i (by simp; omega), Array.getElem?_push, if_neg (by omega)]
    · simp only [Array.size_setIfInBounds, Array.size_push] at hhi ⊢
      by_cases hk : i = code.size
      · subst hk
        refine ⟨_, Array.getElem?_setIfInBounds_self.trans (if_pos (by simp; omega)), ?_⟩
        split <;> simp only [Inst.Inside] <;> omega
      rw [Array.getElem?_setIfInBounds, if_neg (Ne.symm hk)]
      by_cases hj : i = C₁.size
      · subst hj
        exact ⟨.jump code.size, by simp, by simp only [Inst.Inside]; omega⟩
      rw [Array.getElem?_push, if_neg hj]
      obtain ⟨inst, hinst, hin⟩ := hp.inside i (by simp; omega) (by omega)
      exact ⟨inst, hinst, hin.mono (by simp) (by omega)⟩
  | .group name p, code, names => by
    rw [emit_group]
    dsimp only
    have hk := one_le_groupNumber names name
    have hp := emitted_emit p (code.push (.save (2 * (groupNumber names name).1)))
      (groupNumber names name).2
    generalize groupNumber names name = g at hk hp
    generalize emit p (code.push (.save (2 * g.1))) g.2 = r at hp
    obtain ⟨C₁, N₁⟩ := r
    simp only at hp ⊢
    exact (Emitted.push (by simp only [Inst.Inside]; omega)).trans
      (hp.trans (.push (by simp only [Inst.Inside]; omega)))
  | .wordBoundary, code, _ => .push (by simp [Inst.Inside])
  | .lineStart, code, _ => .push (by simp [Inst.Inside])
  | .balanced _ _ _, code, _ => .push (by simp [Inst.Inside])

end Pattern

namespace Pattern

variable {text : ByteArray}

open Thread

/-- A run of steps through a pattern's stretch, from its entry to its exit and in code that
agrees with the stretch, is a way of reading the pattern, with the slots as the run leaves
them. Each group's saves write the slots its name keeps among `final`, the names of the
whole pattern, which extend those the stretch registers. -/
theorem emit_captures (final : Array String) : ∀ (p : Pattern) (code : Array Inst)
    (names : Array String) {P : Array Inst} {n : Nat} {t v : Thread},
    (emit p code names).2.toList <+: final.toList →
    (∀ i, code.size ≤ i → i < (emit p code names).1.size → P[i]? = (emit p code names).1[i]?) →
    Path P text code.size (emit p code names).1.size n t v →
    t.pc = code.size → v.pc = (emit p code names).1.size →
    Captures text final p t.pos v.pos t.slots v.slots
  | .empty, code, names, P, n, t, v, _, _, h, ht, _ => by
    obtain rfl := h.eq_of_not_mem (.inr (Nat.le_of_eq ht.symm))
    exact .empty _ _
  | .chars s, code, names, P, n, t, v, _, hP, h, ht, hv => by
    simp only [emit, Array.size_push] at hP h hv
    have hpc : P[t.pc]? = some (.chars s) := by
      rw [ht, hP _ (Nat.le_refl _) (Nat.lt_succ_self _)]
      simp
    obtain ⟨c, w, hc, hmem, rfl⟩ := (h.single ht hv fun u hu => by
      obtain ⟨_, _, _, _, rfl⟩ := hu.of_chars hpc
      simp [ht]).of_chars hpc
    exact .chars hc hmem
  | .seq p q, code, names, P, n, t, v, hN, hP, h, ht, hv => by
    rw [emit_seq] at hN hP h hv
    have hp := emitted_emit p code names
    have hq := emitted_emit q (emit p code names).1 (emit p code names).2
    -- the first part runs to its exit, then the second to the end
    have hPp : ∀ i, code.size ≤ i → i < (emit p code names).1.size →
        P[i]? = (emit p code names).1[i]? := fun i h₁ h₂ => by
      rw [hP i h₁ (Nat.lt_of_lt_of_le h₂ hq.size_le), hq.getElem?_of_lt i h₂]
    have hPq : ∀ i, (emit p code names).1.size ≤ i → i < (emit q _ _).1.size →
        P[i]? = (emit q (emit p code names).1 (emit p code names).2).1[i]? := fun i h₁ h₂ =>
      hP i (Nat.le_trans hp.size_le h₁) h₂
    obtain ⟨m, u, -, hu, hpre, hpost⟩ :=
      h.exit (hp.closed hPp) (Nat.le_of_eq ht.symm) (by rw [ht]; exact hp.size_le)
        (.inr (by rw [hv]; exact hq.size_le))
    obtain ⟨m', u', -, hu', hpre', hpost'⟩ :=
      hpost.exit (hq.closed hPq) (Nat.le_of_eq hu.symm) (by rw [hu]; exact hq.size_le)
        (.inr (Nat.le_of_eq hv.symm))
    obtain rfl := hpost'.eq_of_not_mem (.inr (Nat.le_of_eq hu'.symm))
    exact .seq (emit_captures final p code names ((names_prefix_emit q _ _).trans hN) hPp hpre ht hu)
      (emit_captures final q _ _ hN hPq hpre' hu hu')
  | .alt p q, code, names, P, n, t, v, hN, hP, h, ht, hv => by
    rw [emit_alt] at hN hP h hv
    dsimp only at hN hP h hv
    have hp := emitted_emit p (code.push (.split 0 0)) names
    have hq := emitted_emit q ((emit p (code.push (.split 0 0)) names).1.push (.jump 0))
      (emit p (code.push (.split 0 0)) names).2
    set C₁ := (emit p (code.push (.split 0 0)) names).1 with hC₁
    set C₂ := (emit q (C₁.push (.jump 0)) (emit p (code.push (.split 0 0)) names).2).1 with hC₂
    have h₁ := hp.size_le
    have h₂ := hq.size_le
    simp only [Array.size_push] at h₁ h₂
    simp only [Array.size_setIfInBounds] at hP h hv
    -- the fork, the skip over the second branch, and the two branches
    have hPk : P[t.pc]? = some (.split (code.size + 1) (C₁.size + 1)) := by
      rw [ht, hP _ (Nat.le_refl _) (by omega), Array.getElem?_setIfInBounds, if_neg (by omega),
        Array.getElem?_setIfInBounds_self, if_pos (by omega)]
    have hPs : P[C₁.size]? = some (.jump C₂.size) := by
      rw [hP _ (by omega) (by omega), Array.getElem?_setIfInBounds_self, if_pos (by simp; omega)]
    have hPp : ∀ i, (code.push (.split 0 0)).size ≤ i → i < C₁.size → P[i]? = C₁[i]? := by
      intro i hi₁ hi₂
      simp only [Array.size_push] at hi₁
      rw [hP i (by omega) (by omega), Array.getElem?_setIfInBounds, if_neg (by omega),
        Array.getElem?_setIfInBounds, if_neg (by omega), hq.getElem?_of_lt i (by simp; omega),
        Array.getElem?_push, if_neg (by omega)]
    have hPq : ∀ i, (C₁.push (.jump 0)).size ≤ i → i < C₂.size → P[i]? = C₂[i]? := by
      intro i hi₁ hi₂
      simp only [Array.size_push] at hi₁
      rw [hP i (by omega) hi₂, Array.getElem?_setIfInBounds, if_neg (by omega),
        Array.getElem?_setIfInBounds, if_neg (by omega)]
    obtain ⟨u, m, -, hs, rest⟩ := h.first (by omega) (by omega) (by omega)
    rcases hs.of_split hPk with rfl | rfl
    · -- the first branch, then the skip to the end
      obtain ⟨m', u', -, hu', hpre, hpost⟩ :=
        rest.exit (hp.closed hPp) (by simp) (by simp; omega) (.inr (by omega))
      obtain ⟨u'', m'', -, hs', rest'⟩ := hpost.first (by omega) (by omega) (by omega)
      rw [← hu'] at hPs
      obtain rfl := hs'.of_jump hPs
      obtain rfl := rest'.eq_of_not_mem (.inr (Nat.le_refl _))
      have hm := emit_captures final p _ names ((names_prefix_emit q _ _).trans hN) hPp hpre
        (by simp) hu'
      exact .altLeft hm
    · obtain ⟨m', u', -, hu', hpre, hpost⟩ :=
        rest.exit (hq.closed hPq) (by simp) (by simp; omega) (.inr (by omega))
      obtain rfl := hpost.eq_of_not_mem (.inr (by omega))
      have hm := emit_captures final q _ _ hN hPq hpre (by simp) hu'
      exact .altRight hm
  | .star p greedy, code, names, P, n, t, v, hN, hP, h, ht, hv => by
    rw [emit_star] at hN hP h hv
    dsimp only at hN hP h hv
    have hp := emitted_emit p (code.push (.split 0 0)) names
    set C₁ := (emit p (code.push (.split 0 0)) names).1 with hC₁
    have h₁ := hp.size_le
    simp only [Array.size_push] at h₁
    simp only [Array.size_setIfInBounds, Array.size_push] at hP h hv
    -- the fork goes on into the body or out of the loop, in either order
    obtain ⟨a, b, hPk, hab⟩ : ∃ a b, P[code.size]? = some (.split a b) ∧
        ((a = code.size + 1 ∧ b = C₁.size + 1) ∨ (a = C₁.size + 1 ∧ b = code.size + 1)) := by
      rw [hP _ (Nat.le_refl _) (by omega), Array.getElem?_setIfInBounds_self,
        if_pos (by simp; omega)]
      cases greedy
      · exact ⟨_, _, rfl, .inr ⟨rfl, rfl⟩⟩
      · exact ⟨_, _, rfl, .inl ⟨rfl, rfl⟩⟩
    have hPj : P[C₁.size]? = some (.jump code.size) := by
      rw [hP _ (by omega) (by omega), Array.getElem?_setIfInBounds, if_neg (by omega),
        Array.getElem?_push, if_pos rfl]
    have hPp : ∀ i, (code.push (.split 0 0)).size ≤ i → i < C₁.size → P[i]? = C₁[i]? := by
      intro i hi₁ hi₂
      simp only [Array.size_push] at hi₁
      rw [hP i (by omega) (by omega), Array.getElem?_setIfInBounds, if_neg (by omega),
        Array.getElem?_push, if_neg (by omega)]
    -- each round through the body comes back to the fork by a shorter path
    induction n using Nat.strongRecOn generalizing t with
    | _ n ih =>
      obtain ⟨u, m, rfl, hs, rest⟩ := h.first (by omega) (by omega) (by omega)
      have hu : (u.pc = code.size + 1 ∨ u.pc = C₁.size + 1) ∧ u.pos = t.pos ∧
          u.slots = t.slots := by
        rcases hs.of_split (ht ▸ hPk) with rfl | rfl <;> exact ⟨by dsimp only; omega, rfl, rfl⟩
      rcases hu with ⟨hu | hu, hpos, hslots⟩
      · obtain ⟨m', u', hm', hu', hpre, hpost⟩ :=
          rest.exit (hp.closed hPp) (by simp only [Array.size_push]; omega) (by omega)
            (.inr (by omega))
        have hbody := emit_captures final p _ names hN hPp hpre (by simp; omega) hu'
        obtain ⟨u'', m'', hm'', hs', rest'⟩ := hpost.first (by omega) (by omega) (by omega)
        obtain rfl := hs'.of_jump (hu' ▸ hPj)
        have hloop := ih m'' (by omega) _ rfl rest'
        rw [hpos, hslots] at hbody
        exact .starCons hbody hloop
      · obtain rfl := rest.eq_of_not_mem (.inr (by omega))
        rw [hpos, hslots]
        exact .starNil _ _ _ _
  | .group name p, code, names, P, n, t, v, hN, hP, h, ht, hv => by
    rw [emit_group] at hN hP h hv
    dsimp only at hN hP h hv
    have hslot := groupSlot_groupNumber ((names_prefix_emit p _ _).trans hN)
    have hp := emitted_emit p (code.push (.save (2 * (groupNumber names name).1)))
      (groupNumber names name).2
    set C₁ := (emit p (code.push (.save (2 * (groupNumber names name).1)))
      (groupNumber names name).2).1 with hC₁
    have h₁ := hp.size_le
    simp only [Array.size_push] at h₁ hP h hv
    -- the saves of the group's start and stop, around its pattern
    have hPk : P[t.pc]? = some (.save (2 * (groupNumber names name).1)) := by
      rw [ht, hP _ (Nat.le_refl _) (by omega), Array.getElem?_push, if_neg (by omega),
        hp.getElem?_of_lt _ (by simp), Array.getElem?_push, if_pos rfl]
    have hPe : P[C₁.size]? = some (.save (2 * (groupNumber names name).1 + 1)) := by
      rw [hP _ (by omega) (by omega), Array.getElem?_push, if_pos rfl]
    have hPp : ∀ i, (code.push (.save (2 * (groupNumber names name).1))).size ≤ i →
        i < C₁.size → P[i]? = C₁[i]? := by
      intro i hi₁ hi₂
      simp only [Array.size_push] at hi₁
      rw [hP i (by omega) (by omega), Array.getElem?_push, if_neg (by omega)]
    obtain ⟨u, m, -, hs, rest⟩ := h.first (by omega) (by omega) (by omega)
    obtain rfl := hs.of_save hPk
    obtain ⟨m', u', -, hu', hpre, hpost⟩ :=
      rest.exit (hp.closed hPp) (by simp [ht]) (by simp [ht]; omega) (.inr (by omega))
    have hm := emit_captures final p _ _ hN hPp hpre (by simp [ht]) hu'
    obtain ⟨u'', m'', -, hs', rest'⟩ := hpost.first (by omega) (by omega) (by omega)
    obtain rfl := hs'.of_save (hu' ▸ hPe)
    obtain rfl := rest'.eq_of_not_mem (.inr (by simp [hu']))
    -- the saves write the slots the name keeps among all the names
    rw [hslot] at hm
    show Captures text final (.group name p) t.pos u'.pos t.slots
      (u'.slots.setIfInBounds (2 * (groupNumber names name).1 + 1) (some u'.pos))
    rw [hslot]
    exact .group hm
  | .wordBoundary, code, names, P, n, t, v, _, hP, h, ht, hv => by
    simp only [emit, Array.size_push] at hP h hv
    have hpc : P[t.pc]? = some .wordBoundary := by
      rw [ht, hP _ (Nat.le_refl _) (Nat.lt_succ_self _)]
      simp
    obtain ⟨hwb, rfl⟩ := (h.single ht hv fun u hu => by
      obtain ⟨_, rfl⟩ := hu.of_wordBoundary hpc
      simp [ht]).of_wordBoundary hpc
    exact .wordBoundary hwb
  | .lineStart, code, names, P, n, t, v, _, hP, h, ht, hv => by
    simp only [emit, Array.size_push] at hP h hv
    have hpc : P[t.pc]? = some .lineStart := by
      rw [ht, hP _ (Nat.le_refl _) (Nat.lt_succ_self _)]
      simp
    obtain ⟨hls, rfl⟩ := (h.single ht hv fun u hu => by
      obtain ⟨_, rfl⟩ := hu.of_lineStart hpc
      simp [ht]).of_lineStart hpc
    exact .lineStart hls
  | .balanced o c limit, code, names, P, n, t, v, _, hP, h, ht, hv => by
    simp only [emit, Array.size_push] at hP h hv
    have hpc : P[t.pc]? = some (.balanced o c limit) := by
      rw [ht, hP _ (Nat.le_refl _) (Nat.lt_succ_self _)]
      simp
    obtain ⟨stop, hb, rfl⟩ := (h.single ht hv fun u hu => by
      obtain ⟨_, _, rfl⟩ := hu.of_balanced hpc
      simp [ht]).of_balanced hpc
    exact .balanced hb

end Pattern

namespace Pattern

variable {text : ByteArray}

open Thread

/-- A compiled pattern: its own stretch after `save 0`, then `save 1` and `accept`. -/
theorem compile_code (p : Pattern) :
    p.compile.code = ((emit p #[.save 0] #[]).1.push (.save 1)).push .accept := rfl

/-- Every run of a compiled pattern from its first instruction to `accept` records its start
in slot `0`, reads the pattern with the slots up to some stop, and records that stop in slot
`1`. -/
theorem compile_captures (p : Pattern) {n : Nat} {t v : Thread}
    (h : Path p.compile.code text 0 p.compile.code.size n t v) (ht : t.pc = 0)
    (hv : p.compile.code[v.pc]? = some .accept) :
    ∃ stop σ, Captures text p.compile.groups p t.pos stop
      (t.slots.setIfInBounds 0 (some t.pos)) σ ∧ v.slots = σ.setIfInBounds 1 (some stop) := by
  rw [compile_code] at h hv
  have hE := emitted_emit p #[.save 0] #[]
  set C := (emit p #[.save 0] #[]).1 with hC
  have h₁ : 1 ≤ C.size := hE.size_le
  simp only [Array.size_push] at h
  -- the instructions: `save 0`, the stretch, `save 1`, `accept`
  have h0 : (((C.push (.save 1)).push .accept))[0]? = some (.save 0) := by
    rw [Array.getElem?_push, if_neg (by simp), Array.getElem?_push, if_neg (by omega),
      hE.getElem?_of_lt 0 (by simp)]
    rfl
  have hstop : (((C.push (.save 1)).push .accept))[C.size]? = some (.save 1) := by
    rw [Array.getElem?_push, if_neg (by simp), Array.getElem?_push, if_pos rfl]
  have hP : ∀ i, (#[Inst.save 0] : Array Inst).size ≤ i → i < C.size →
      ((C.push (.save 1)).push .accept)[i]? = C[i]? := by
    intro i _ hi
    rw [Array.getElem?_push, if_neg (by simp; omega), Array.getElem?_push, if_neg (by omega)]
  have hacc : v.pc = C.size + 1 := by
    rw [Array.getElem?_push] at hv
    split at hv
    · rename_i heq
      simpa using heq
    · rw [Array.getElem?_push] at hv
      split at hv
      · cases hv
      · -- inside the stretch no instruction accepts, and `save 0` does not
        rcases Nat.eq_zero_or_pos v.pc with h0' | hpos
        · rw [h0', hE.getElem?_of_lt 0 (by simp)] at hv
          cases hv
        · have hlt : v.pc < C.size := by
            have := (Array.getElem?_eq_some_iff.1 hv).1
            omega
          obtain ⟨inst, hinst, hin⟩ := hE.inside v.pc (by simp; omega) hlt
          rw [hinst] at hv
          cases hv
          exact absurd hin id
  -- the first step saves the start
  cases h with
  | refl => rw [ht] at hacc; omega
  | @step n' _ u _ _ _ hs rest =>
  obtain rfl := hs.of_save (by rw [ht]; exact h0)
  obtain ⟨m, u', -, hu', hpre, hpost⟩ :=
    rest.exit (hE.closed hP) (by simp [ht]) (by simp [ht]; omega) (.inr (by omega))
  have hm := emit_captures p.compile.groups p #[.save 0] #[] (List.prefix_refl _) hP hpre
    (by simp [ht]) hu'
  -- then the stretch runs to `save 1`, which records the stop before `accept`
  obtain ⟨u'', m', -, hs', rest'⟩ :=
    hpost.eq_or_step.resolve_left fun he => by rw [he] at hacc; omega
  obtain rfl := hs'.of_save (by rw [hu']; exact hstop)
  obtain rfl := rest'.eq_of_accept (by
    rw [hu', Array.getElem?_push, if_pos (by simp)])
  exact ⟨u'.pos, u'.slots, hm, rfl⟩

/-- Every run of a compiled pattern from its first instruction to `accept` recorded in slots
`0` and `1` a start and a stop between which the pattern matches. -/
theorem compile_sound (p : Pattern) {n : Nat} {t v : Thread}
    (h : Path p.compile.code text 0 p.compile.code.size n t v) (ht : t.pc = 0)
    (hslots : 2 ≤ t.slots.size) (hv : p.compile.code[v.pc]? = some .accept) :
    ∃ stop, Matches text p t.pos stop ∧ v.slots[0]? = some (some t.pos) ∧
      v.slots[1]? = some (some stop) := by
  obtain ⟨stop, σ, hc, hσ⟩ := compile_captures p h ht hv
  have hsize : σ.size = t.slots.size := by rw [hc.size_slots, Array.size_setIfInBounds]
  refine ⟨stop, hc.matches, ?_, ?_⟩ <;> rw [hσ]
  · rw [Array.getElem?_setIfInBounds, if_neg (by omega), hc.getElem?_of_lt_two (by omega),
      Array.getElem?_setIfInBounds_self, if_pos (by omega)]
  · rw [Array.getElem?_setIfInBounds_self, if_pos (by omega)]

end Pattern

end Lineage
