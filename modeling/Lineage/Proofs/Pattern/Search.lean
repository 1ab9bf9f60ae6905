import Lineage.Proofs.Pattern.Compile
/-!
A search reports only matches of its pattern.

The backtracking run keeps branches to try and slots to restore on a stack. Read from the
top, a stack is sound for a set of threads when every branch it keeps, with the slots put
back by the `restore` frames above it, is in the set (`Frame.Sound`). For a set closed under
steps, a run that starts from a thread of the set with a sound stack moves only to threads
of the set, and accepts at one (`run_reaches`): a `save` pushes exactly the frame that
undoes it, and popping a frame undoes what it says.

Taking for the set the threads that a compiled pattern reaches from its first instruction,
`compile_sound` gives what the search reports: a match of the pattern that starts at or
after the offset asked for (`searchAt_sound`). The visited set only cuts runs short, so it
plays no part here.
-/
namespace Lineage

/-- Every branch a stack keeps, read from the top, is a thread that `reach` holds, with the
slots that the `restore` frames above it put back. -/
def Frame.Sound (reach : Thread → Prop) : List Frame → Array (Option Nat) → Prop
  | [], _ => True
  | .explore pc pos :: rest, slots => reach ⟨pc, pos, slots⟩ ∧ Frame.Sound reach rest slots
  | .restore k old :: rest, slots => Frame.Sound reach rest (slots.setIfInBounds k old)

/-- Putting a slot back to what it held changes nothing. -/
theorem setIfInBounds_getElem?_bind (slots : Array (Option Nat)) (k : Nat) :
    slots.setIfInBounds k ((slots[k]?).bind id) = slots := by
  apply Array.ext_getElem?
  intro i
  rw [Array.getElem?_setIfInBounds]
  split
  · subst_vars
    split
    · rename_i hk
      rw [Array.getElem?_eq_getElem hk]
      simp
    · rename_i hk
      rw [Array.getElem?_eq_none (Nat.le_of_not_lt hk)]
  · rfl

/-- The stack read from the top, once its top frame is known. -/
theorem reverse_toList_of_back? {stack : Array Frame} {f : Frame} (h : stack.back? = some f) :
    stack.toList.reverse = f :: stack.pop.toList.reverse := by
  obtain ⟨ys, rfl⟩ := Array.back?_eq_some_iff.1 h
  simp

namespace Program

/-- A run from a thread of a set closed under steps, with a sound stack, accepts only at a
thread of the set. -/
theorem run_reaches (prog : Program) (text : ByteArray) (base : Nat) (reach : Thread → Prop)
    (hstep : ∀ t u, reach t → Thread.Step prog.code text t u → reach u)
    {fuel : Nat} {live : Bool} {pc pos : Nat} {stack : Array Frame} {slots : Array (Option Nat)}
    {seen : Visited} {res : Array (Option Nat)} {seen' : Visited}
    (h : prog.run text base fuel live pc pos stack slots seen = (some res, seen'))
    (hlive : live = true → reach ⟨pc, pos, slots⟩)
    (hstack : Frame.Sound reach stack.toList.reverse slots) :
    ∃ pc pos, prog.code[pc]? = some .accept ∧ reach ⟨pc, pos, res⟩ := by
  fun_induction Program.run prog text base fuel live pc pos stack slots seen
  -- each case moves to a thread the set holds, or backs out to a branch the stack holds
  case case1 => cases h
  case case2 => cases h
  case case3 hb ih =>
    rw [reverse_toList_of_back? hb] at hstack
    exact ih h nofun hstack
  case case4 hb ih =>
    rw [reverse_toList_of_back? hb] at hstack
    exact ih h (fun _ => hstack.1) hstack.2
  case case5 ih => exact ih h nofun hstack
  case case6 hlt _ hs _ hascii hmem ih =>
    simp only [Bool.and_eq_true, decide_eq_true_eq] at hascii
    have hpc := (Array.getElem?_eq_getElem hlt).trans (congrArg some hs)
    exact ih h (fun _ => hstep _ _ (hlive rfl)
      (.chars hpc (Utf8.charAt?_of_lt hascii.1 hascii.2) hmem)) hstack
  case case7 ih => exact ih h nofun hstack
  case case8 hlt _ hs _ _ _ _ hc hmem ih =>
    have hpc := (Array.getElem?_eq_getElem hlt).trans (congrArg some hs)
    exact ih h (fun _ => hstep _ _ (hlive rfl) (.chars hpc hc hmem)) hstack
  case case9 ih => exact ih h nofun hstack
  case case10 ih => exact ih h nofun hstack
  case case11 hlt _ _ hs ih =>
    have hpc := (Array.getElem?_eq_getElem hlt).trans (congrArg some hs)
    refine ih h (fun _ => hstep _ _ (hlive rfl) (.splitFirst hpc)) ?_
    simpa [Frame.Sound] using ⟨hstep _ _ (hlive rfl) (.splitSecond hpc), hstack⟩
  case case12 hlt _ hs ih =>
    have hpc := (Array.getElem?_eq_getElem hlt).trans (congrArg some hs)
    exact ih h (fun _ => hstep _ _ (hlive rfl) (.jump hpc)) hstack
  case case13 hlt _ hs old ih =>
    have hpc := (Array.getElem?_eq_getElem hlt).trans (congrArg some hs)
    refine ih h (fun _ => hstep _ _ (hlive rfl) (.save hpc)) ?_
    -- the frame pushed by `save` puts the slot back as it was
    simp only [old, Array.toList_push, List.reverse_append, List.reverse_cons, List.reverse_nil,
      List.nil_append, List.singleton_append, Frame.Sound, Array.setIfInBounds_setIfInBounds,
      setIfInBounds_getElem?_bind]
    exact hstack
  case case14 hlt hs hwb ih =>
    have hpc := (Array.getElem?_eq_getElem hlt).trans (congrArg some hs)
    exact ih h (fun _ => hstep _ _ (hlive rfl) (.wordBoundary hpc hwb)) hstack
  case case15 ih => exact ih h nofun hstack
  case case16 hlt hs hls ih =>
    have hpc := (Array.getElem?_eq_getElem hlt).trans (congrArg some hs)
    exact ih h (fun _ => hstep _ _ (hlive rfl) (.lineStart hpc hls)) hstack
  case case17 ih => exact ih h nofun hstack
  case case18 hlt _ _ _ hs _ hb ih =>
    have hpc := (Array.getElem?_eq_getElem hlt).trans (congrArg some hs)
    exact ih h (fun _ => hstep _ _ (hlive rfl) (.balanced hpc hb)) hstack
  case case19 ih => exact ih h nofun hstack
  case case20 hlt hs =>
    obtain rfl := (Option.some.inj (Prod.mk.inj h).1)
    exact ⟨_, _, (Array.getElem?_eq_getElem hlt).trans (congrArg some hs), hlive rfl⟩
  case case21 ih => exact ih h nofun hstack

/-- The threads a program reaches from its first instruction at `pos`, with the slots `slots`. -/
def Reaches (prog : Program) (text : ByteArray) (pos : Nat) (slots : Array (Option Nat))
    (t : Thread) : Prop :=
  ∃ n, Thread.Path prog.code text 0 prog.code.size n ⟨0, pos, slots⟩ t

theorem reaches_step {prog : Program} {text : ByteArray} {pos : Nat} {slots : Array (Option Nat)}
    (t u : Thread) (ht : prog.Reaches text pos slots t) (hs : Thread.Step prog.code text t u) :
    prog.Reaches text pos slots u := by
  obtain ⟨n, hn⟩ := ht
  exact ⟨n + 1, hn.snoc hs (Nat.zero_le _) hs.pc_lt⟩

/-- A match tried from successive offsets is a match of the pattern, at one of the offsets. -/
theorem scanStarts_sound (p : Pattern) (text : ByteArray) (base fuel : Nat) :
    ∀ {count pos : Nat} {seen : Visited} {m : Match},
      p.compile.scanStarts text base fuel count pos seen = some m →
      pos ≤ m.start ∧ Pattern.Matches text p m.start m.stop
  | 0, _, _, _, h => by simp [scanStarts] at h
  | count + 1, pos, seen, m, h => by
    unfold scanStarts at h
    split at h
    · simp only at h
      split at h
      · rename_i res _ hrun
        obtain rfl := (Option.some.inj h).symm
        -- the run accepts at a thread reached from the first instruction
        obtain ⟨pc, pos', hacc, n, hpath⟩ :=
          run_reaches p.compile text base (p.compile.Reaches text pos _) reaches_step hrun
            (fun _ => ⟨0, .refl _⟩) trivial
        obtain ⟨stop, hm, h0, h1⟩ :=
          Pattern.compile_sound p hpath rfl (by simp only [Array.size_replicate]; omega) hacc
        have hstart : Match.start ⟨res, p.compile.groups⟩ = pos := by
          simp only at h0
          simp [Match.start, h0]
        have hstop : Match.stop ⟨res, p.compile.groups⟩ = stop := by
          simp only at h1
          simp [Match.stop, h1]
        rw [hstart, hstop]
        exact ⟨Nat.le_refl _, hm⟩
      · have := scanStarts_sound p text base fuel h
        exact ⟨by omega, this.2⟩
    · have := scanStarts_sound p text base fuel h
      exact ⟨by omega, this.2⟩

/-- A search for a compiled pattern reports a match of the pattern at or after the offset
asked for. -/
theorem searchAt_sound {p : Pattern} {text : ByteArray} {pos : Nat} {m : Match}
    (h : p.compile.searchAt text pos = some m) :
    pos ≤ m.start ∧ Pattern.Matches text p m.start m.stop := by
  unfold searchAt at h
  split at h
  · cases h
  · exact scanStarts_sound p text _ _ h

end Program

end Lineage
