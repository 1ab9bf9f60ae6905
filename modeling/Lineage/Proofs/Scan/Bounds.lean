import Lineage.Overlay.Basic
import Mathlib.Tactic.SplitIfs
import Mathlib.Tactic.ByContra
/-!
Matches lie inside the text.

A scanner records spans read off the offsets of matches, and a tree refuses a span that
escapes its file's. This module shows that no offset a search reports lies past the end of
the text searched:

* `Utf8.charAt?_stop_le`, `balancedStop_le`: reading a character or a balanced expression
  stops inside the bytes;
* `run_inside`: the backtracking run keeps every offset it holds inside the text, in the
  thread, on its stack and in its slots, so the slots it accepts with are inside too;
* `searchAt_inside`, `Overlay.findAt_inside`, `Overlay.mem_findAll_inside`: the matches a
  search reports are inside the text.

Masking never changes the length of the text (`Overlay.size_mask`, `Overlay.size_maskAll`),
so these bounds hold against the source file however much of it has been masked.
-/
namespace Lineage

namespace Utf8

theorem lt_size_of_isCont {bs : ByteArray} {j : Nat} (h : isCont (byteAt bs j) = true) :
    j < bs.size := by
  by_contra hlt
  simp [byteAt, hlt, isCont] at h

/-- The last byte of a character of more than one byte is a continuation byte. -/
theorem decodeAt_char_last {bs : ByteArray} {i w : Nat} {c : Char}
    (h : decodeAt bs i = .char c w) : w = 1 ∨ isCont (byteAt bs (i + w - 1)) = true := by
  unfold decodeAt at h
  simp only at h
  split_ifs at h
  all_goals simp only [Item.char.injEq] at h
  all_goals obtain ⟨-, rfl⟩ := h
  all_goals first
    | exact Or.inl rfl
    | exact Or.inr (by simp_all)

/-- A character read at an offset ends inside the bytes. -/
theorem charAt?_stop_le {bs : ByteArray} {i w : Nat} {c : Char}
    (h : charAt? bs i = some (c, w)) : i + w ≤ bs.size := by
  unfold charAt? at h
  split at h
  · rename_i hi
    split at h
    · rename_i c' w' hdec
      obtain ⟨rfl, rfl⟩ := Prod.mk.inj (Option.some.inj h)
      rcases decodeAt_char_last hdec with rfl | hcont
      · omega
      · have hlast := lt_size_of_isCont hcont
        omega
    · cases h
  · cases h

end Utf8

/-- A balanced expression stops inside the bytes. -/
theorem balancedStop_le {text : ByteArray} {o c : Char} {limit : Nat} :
    ∀ {fuel depth pos stop : Nat}, balancedStop text o c limit fuel depth pos = some stop →
      stop ≤ text.size
  | 0, _, _, _, h => by simp [balancedStop] at h
  | fuel + 1, depth, pos, stop, h => by
    unfold balancedStop at h
    split at h
    · cases h
    · rename_i ch w hch
      have hw := Utf8.charAt?_stop_le hch
      split_ifs at h
      all_goals first
        | (cases h <;> exact hw)
        | exact balancedStop_le h

/-- An offset a frame of the run keeps is inside a text of `n` bytes. -/
def Frame.Inside (n : Nat) : Frame → Prop
  | .explore _ pos => pos ≤ n
  | .restore _ old => ∀ x, old = some x → x ≤ n

/-- Every offset a backtracking run holds is inside a text of `n` bytes: the live thread's,
the frames', and the slots'. -/
structure RunInside (n : Nat) (live : Bool) (pos : Nat) (stack : Array Frame)
    (slots : Array (Option Nat)) : Prop where
  pos : live = true → pos ≤ n
  stack : ∀ f ∈ stack, f.Inside n
  slots : ∀ v ∈ slots, ∀ x, v = some x → x ≤ n

namespace RunInside

variable {n : Nat} {live : Bool} {pos : Nat} {stack : Array Frame} {slots : Array (Option Nat)}

theorem halt (h : RunInside n live pos stack slots) (p : Nat) :
    RunInside n false p stack slots :=
  ⟨(fun hf => by cases hf), h.stack, h.slots⟩

theorem goto (h : RunInside n live pos stack slots) {p : Nat} (hp : p ≤ n) :
    RunInside n true p stack slots :=
  ⟨fun _ => hp, h.stack, h.slots⟩

theorem mem_of_mem_pop {f : Frame} (hf : f ∈ stack.pop) : f ∈ stack := by
  rw [← Array.mem_toList_iff, Array.toList_pop] at hf
  exact Array.mem_toList_iff.1 (List.dropLast_subset _ hf)

/-- Backing out past a `save` restores a slot to an offset the frame kept. -/
theorem restore (h : RunInside n live pos stack slots) {k : Nat} {old : Option Nat}
    (hb : stack.back? = some (.restore k old)) (p : Nat) :
    RunInside n false p stack.pop (slots.setIfInBounds k old) := by
  have hold : ∀ x, old = some x → x ≤ n := h.stack _ (Array.mem_of_back? hb)
  refine ⟨(fun hf => by cases hf), fun f hf => h.stack f (mem_of_mem_pop hf), ?_⟩
  intro v hv x hx
  rcases Array.mem_or_eq_of_mem_setIfInBounds hv with hv | rfl
  · exact h.slots v hv x hx
  · exact hold x hx

/-- Taking up a kept branch resumes at an offset the frame kept. -/
theorem explore (h : RunInside n live pos stack slots) {pc p : Nat}
    (hb : stack.back? = some (.explore pc p)) : RunInside n true p stack.pop slots :=
  ⟨fun _ => h.stack _ (Array.mem_of_back? hb), fun f hf => h.stack f (mem_of_mem_pop hf),
    h.slots⟩

/-- Keeping a branch for later keeps the live offset. -/
theorem branch (h : RunInside n true pos stack slots) (pc : Nat) :
    RunInside n true pos (stack.push (.explore pc pos)) slots := by
  refine ⟨h.pos, fun f hf => ?_, h.slots⟩
  rcases Array.mem_push.1 hf with hf | rfl
  · exact h.stack f hf
  · exact h.pos rfl

/-- A `save` records the live offset and keeps the slot's old offset on the stack. -/
theorem save (h : RunInside n true pos stack slots) (k : Nat) :
    RunInside n true pos (stack.push (.restore k ((slots[k]?).bind id)))
      (slots.setIfInBounds k (some pos)) := by
  refine ⟨h.pos, fun f hf => ?_, fun v hv x hx => ?_⟩
  · rcases Array.mem_push.1 hf with hf | rfl
    · exact h.stack f hf
    · intro x hx
      cases hk : slots[k]? with
      | none => simp [hk] at hx
      | some v =>
        rw [hk, Option.bind_some, id] at hx
        exact h.slots v (Array.mem_of_getElem? hk) x hx
  · rcases Array.mem_or_eq_of_mem_setIfInBounds hv with hv | rfl
    · exact h.slots v hv x hx
    · obtain rfl := Option.some.inj hx
      exact h.pos rfl

end RunInside

/-- Every offset a match records is inside a text of `n` bytes. -/
def Match.Inside (n : Nat) (m : Match) : Prop := ∀ v ∈ m.slots, ∀ x, v = some x → x ≤ n

namespace Match.Inside

variable {n : Nat} {m : Match}

theorem slot_le (h : m.Inside n) {k x : Nat} (hk : (m.slots[k]?).bind id = some x) : x ≤ n := by
  cases hs : m.slots[k]? with
  | none => simp [hs] at hk
  | some v =>
    rw [hs, Option.bind_some, id] at hk
    exact h v (Array.mem_of_getElem? hs) x hk

theorem start_le (h : m.Inside n) : m.start ≤ n := by
  unfold Match.start
  cases hs : (m.slots[0]?).bind id with
  | none => simp
  | some x => exact h.slot_le hs

theorem stop_le (h : m.Inside n) : m.stop ≤ n := by
  unfold Match.stop
  cases hs : (m.slots[1]?).bind id with
  | none => simp
  | some x => exact h.slot_le hs

end Match.Inside

namespace Program

/-- The slots a backtracking run accepts with are inside the text. -/
theorem run_inside (prog : Program) (text : ByteArray) (base : Nat) {fuel : Nat} {live : Bool}
    {pc pos : Nat} {stack : Array Frame} {slots : Array (Option Nat)} {seen : Visited}
    {res : Array (Option Nat)} {seen' : Visited}
    (h : prog.run text base fuel live pc pos stack slots seen = (some res, seen'))
    (hinv : RunInside text.size live pos stack slots) :
    ∀ v ∈ res, ∀ x, v = some x → x ≤ text.size := by
  fun_induction Program.run prog text base fuel live pc pos stack slots seen
  -- each case moves to a thread whose offsets are inside, or fails, or accepts
  case case1 => cases h
  case case2 => cases h
  case case3 hb ih => exact ih h (hinv.restore hb 0)
  case case4 hb ih => exact ih h (hinv.explore hb)
  case case5 ih => exact ih h (hinv.halt 0)
  case case6 hlt _ ih =>
    simp only [Bool.and_eq_true, decide_eq_true_eq] at hlt
    exact ih h (hinv.goto hlt.1)
  case case7 ih => exact ih h (hinv.halt 0)
  case case8 hc _ ih => exact ih h (hinv.goto (Utf8.charAt?_stop_le hc))
  case case9 ih => exact ih h (hinv.halt 0)
  case case10 ih => exact ih h (hinv.halt 0)
  case case11 ih => exact ih h ((hinv.branch _).goto (hinv.pos rfl))
  case case12 ih => exact ih h (hinv.goto (hinv.pos rfl))
  case case13 ih => exact ih h (hinv.save _)
  case case14 ih => exact ih h (hinv.goto (hinv.pos rfl))
  case case15 ih => exact ih h (hinv.halt 0)
  case case16 ih => exact ih h (hinv.goto (hinv.pos rfl))
  case case17 ih => exact ih h (hinv.halt 0)
  case case18 hb ih => exact ih h (hinv.goto (balancedStop_le hb))
  case case19 ih => exact ih h (hinv.halt 0)
  case case20 =>
    obtain rfl := (Option.some.inj (Prod.mk.inj h).1).symm
    exact hinv.slots
  case case21 ih => exact ih h (hinv.halt 0)

theorem isBoundary_le {bs : ByteArray} {i : Nat} (h : Utf8.isBoundary bs i = true) :
    i ≤ bs.size := by
  simp only [Utf8.isBoundary, Bool.or_eq_true, beq_iff_eq, Bool.and_eq_true,
    decide_eq_true_eq] at h
  omega

/-- The matches tried from successive start offsets are inside the text. -/
theorem scanStarts_inside (prog : Program) (text : ByteArray) (base fuel : Nat) :
    ∀ {count pos : Nat} {seen : Visited} {m : Match},
      prog.scanStarts text base fuel count pos seen = some m → m.Inside text.size
  | 0, _, _, _, h => by simp [scanStarts] at h
  | count + 1, pos, seen, m, h => by
    unfold scanStarts at h
    split at h
    · rename_i hstart
      have hpos : pos ≤ text.size := by
        simp only [Bool.and_eq_true] at hstart
        exact isBoundary_le hstart.1
      simp only at h
      split at h
      · rename_i slots _ hrun
        obtain rfl := (Option.some.inj h).symm
        -- the run starts with an empty stack and empty slots at a boundary
        have hinv : RunInside text.size true pos #[]
            (Array.replicate (2 * (prog.groups.size + 1)) none) := by
          refine ⟨fun _ => hpos, fun f hf => by simp at hf, fun v hv x hx => ?_⟩
          obtain rfl := (Array.mem_replicate.1 hv).2
          cases hx
        exact run_inside prog text base hrun hinv
      · exact scanStarts_inside prog text base fuel h
    · exact scanStarts_inside prog text base fuel h

/-- The match a search reports is inside the text. -/
theorem searchAt_inside {prog : Program} {text : ByteArray} {pos : Nat} {m : Match}
    (h : prog.searchAt text pos = some m) : m.Inside text.size := by
  unfold searchAt at h
  split at h
  · cases h
  · exact scanStarts_inside prog text _ _ h

theorem findAll_go_inside {prog : Program} {text : ByteArray} :
    ∀ {fuel pos : Nat} {m : Match}, m ∈ findAll.go prog text fuel pos → m.Inside text.size
  | 0, _, _, h => by simp [findAll.go] at h
  | fuel + 1, pos, m, h => by
    unfold findAll.go at h
    split at h
    · simp at h
    · rename_i m' hm'
      rcases List.mem_cons.1 h with rfl | h
      · exact searchAt_inside hm'
      · exact findAll_go_inside h

/-- The successive matches of a pattern are inside the text. -/
theorem mem_findAll_inside {prog : Program} {text : ByteArray} {m : Match}
    (h : m ∈ prog.findAll text) : m.Inside text.size :=
  findAll_go_inside h

end Program

namespace Overlay

@[simp] theorem size_fill (t : Overlay) (a b : Nat) (c : UInt8) : (t.fill a b c).size = t.size :=
  rfl

@[simp] theorem size_mask (t : Overlay) (a b : Nat) : (t.mask a b).size = t.size := rfl

@[simp] theorem size_maskAllWithByte (t : Overlay) (prog : Program) (fillByte : UInt8) :
    (t.maskAllWithByte prog fillByte).1.size = t.size := by
  unfold maskAllWithByte
  simp only
  generalize (t.findAll prog).filterMap _ = ranges
  induction ranges generalizing t with
  | nil => rfl
  | cons r rest ih =>
    rw [List.foldl_cons, ih]
    rfl

@[simp] theorem size_maskAll (t : Overlay) (prog : Program) : (t.maskAll prog).1.size = t.size :=
  size_maskAllWithByte t prog _

@[simp] theorem size_maskAllWith (t : Overlay) (prog : Program) (c : Char) :
    (t.maskAllWith prog c).1.size = t.size :=
  size_maskAllWithByte t prog _

/-- A match found in the view is inside the text. -/
theorem findAt_inside {t : Overlay} {prog : Program} {pos : Nat} {m : Match}
    (h : t.findAt prog pos = some m) : m.Inside t.size := by
  unfold findAt at h
  split at h
  · cases h
  · have hin := Program.searchAt_inside h
    rwa [t.size_view] at hin

theorem mem_findAll_inside {t : Overlay} {prog : Program} {m : Match} (h : m ∈ t.findAll prog) :
    m.Inside t.size := by
  have hin := Program.mem_findAll_inside h
  rwa [t.size_view] at hin

end Overlay

end Lineage
