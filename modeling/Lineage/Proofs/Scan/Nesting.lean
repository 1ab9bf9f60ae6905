import Lineage.Proofs.Scan.DeclarationSpan
/-!
How the declarations of a Java file nest.

The Java scanner finds the innermost declarations first: each round takes the first match of
the declaration pattern in the view, records it, and masks it, so that the declaration around
it can match next. It decides nesting only after the fact: a newly recorded declaration
adopts the waiting ones that start after it and lie inside its span, and at the end the file's
scope adopts those still waiting.

The loop keeps `Java.Nested`. Its key fact is that every recorded span is hidden: nothing in
it shows any longer. A new span starts and ends with characters that show
(`Java.nextDeclaration_spanShows`), so it lies apart from every recorded span, or strictly
around it (`Overlay.disjoint_or_strictlyInside`). Hence the waiting declarations it adopts are
exactly those it holds (`Java.Nested.mem_adoptees`), and the first declaration recorded after
one that holds it becomes its parent.

* `Java.Pending.recorded`: what recording one declaration does (`Java.Recorded`): where it
  stores the declaration and under what name, and which waiting ones it adopts;
* `Java.Nested.insert`, `Java.Nested.declarations`: one round, and the whole loop, keep the
  invariant;
* `Java.scan_start`, `Java.LoopStart.nested`: where the loop starts it holds;
* `Java.Nested.nestedBySpan`: once the file's scope adopts the rest, the recorded declarations
  nest by their spans (`SymbolTree.NestedBySpan`);
* `java_declarations_nest`: so does every scan of a Java text into a shaped tree.
-/
namespace Lineage

namespace Span

/-- No offset lies in both spans. -/
def Disjoint (a b : Span) : Prop := a.stop ≤ b.start ∨ b.stop ≤ a.start

/-- `a` lies inside `b` and reaches neither of its ends. -/
def StrictlyInside (a b : Span) : Prop := b.start < a.start ∧ a.stop < b.stop

theorem contains_iff {s o : Span} : s.contains o = true ↔ s.start ≤ o.start ∧ o.stop ≤ s.stop := by
  simp [contains]

end Span

namespace Overlay

variable {t : Overlay}

/-- Masking hides every offset of the widened range. -/
theorem showsAt_mask_of_mem {start stop q : Nat} (ha : (t.widen start stop).1 ≤ q)
    (hb : q < (t.widen start stop).2) : (t.mask start stop).showsAt q = false := by
  cases hq : t.showsAt q
  · exact Bool.eq_false_iff.2 fun h => by rw [showsAt_of_fill (.inl rfl) h] at hq; cases hq
  · exact showsAt_fill_of_mem (.inl rfl) hq ha hb

theorem showsAt_mask_of_false {start stop q : Nat} (h : t.showsAt q = false) :
    (t.mask start stop).showsAt q = false :=
  Bool.eq_false_iff.2 fun h' => by rw [showsAt_of_fill (.inl rfl) h'] at h; cases h

theorem showsAt_maskAll_of_false {q : Nat} (prog : Program) (h : t.showsAt q = false) :
    (t.maskAll prog).1.showsAt q = false :=
  maskAllWithByte_induction (P := fun t => t.showsAt q = false)
    (fun _ _ _ ht => showsAt_mask_of_false ht) prog h

/-- A span whose first and last offsets show lies apart from, or strictly around, a span of
which no offset shows. -/
theorem disjoint_or_strictlyInside {a s : Span} (hs : t.showsAt s.start = true)
    (hl : t.showsAt (s.stop - 1) = true)
    (ha : ∀ q, a.start ≤ q → q < a.stop → t.showsAt q = false) :
    a.Disjoint s ∨ a.StrictlyInside s := by
  have h₁ : ¬ (a.start ≤ s.start ∧ s.start < a.stop) := fun hq => by
    rw [ha _ hq.1 hq.2] at hs
    cases hs
  have h₂ : ¬ (a.start ≤ s.stop - 1 ∧ s.stop - 1 < a.stop) := fun hq => by
    rw [ha _ hq.1 hq.2] at hl
    cases hl
  unfold Span.Disjoint Span.StrictlyInside
  omega

end Overlay

namespace SymbolTree

/-- The span of a symbol, or the empty span at the start for a symbol without one. -/
def spanAt (t : SymbolTree) (i : Nat) : Span := (t.get i).span.getD ⟨0, 0⟩

/-- A nesting that succeeds links. -/
theorem nest_ok {t t' : SymbolTree} {p c : Nat} (h : t.nest p c = .ok t') : t' = t.link p c := by
  unfold nest at h
  split at h
  · cases h
  · dsimp only at h
    split at h
    · cases h
    · split at h
      · split at h
        · cases h
        · exact (Except.ok.inj h).symm
      · exact (Except.ok.inj h).symm

end SymbolTree

namespace Java

open SymbolTree

/-- Adopting members one after another appends them, in order, to the children of `p`,
changes the kind of no other symbol, and the name of none. -/
theorem adopt_fold_children {p : Nat} {construct : Option String} {typeName : String} :
    ∀ {ms : List Nat} {t t' : SymbolTree}, p < t.size → (∀ m ∈ ms, m < t.size) →
      ms.foldlM (adoptStep p construct typeName) t = .ok t' → ∀ i,
        (t'.get i).children.toList =
            (if i = p then (t.get i).children.toList ++ ms else (t.get i).children.toList) ∧
          (i ∉ ms → (t'.get i).kind = (t.get i).kind) ∧ (t'.get i).name = (t.get i).name
  | [], t, t', _, _, h, i => by
    cases h
    simp
  | m :: ms, t, t', hp, hms, h, i => by
    rw [List.foldlM_cons] at h
    cases hstep : adoptStep p construct typeName t m with
    | error e =>
      rw [hstep] at h
      cases h
    | ok t₁ =>
      rw [hstep] at h
      have hm : m < t.size := hms m List.mem_cons_self
      have ht₁ := nest_ok hstep
      have hwp : p < (widenMember t m construct typeName).size := by simpa using hp
      have hwm : m < (widenMember t m construct typeName).size := by simpa using hm
      have hsize : t₁.size = t.size := by rw [ht₁]; simp
      obtain ⟨hch, hkind, hname⟩ := adopt_fold_children (hsize ▸ hp)
        (fun x hx => hsize ▸ hms x (List.mem_cons_of_mem m hx)) h i
      -- one link: `m` moves below `p` and joins the end of its children
      have hget : t₁.get i = { (widenMember t m construct typeName).get i with
          parent := if i = m then some p else ((widenMember t m construct typeName).get i).parent
          children := if i = p then ((widenMember t m construct typeName).get i).children.push m
            else ((widenMember t m construct typeName).get i).children } := by
        rw [ht₁, get_link hwp hwm]
      have hsame := (widenMember_sameShape t m construct typeName i).children
      refine ⟨?_, fun hi => ?_, ?_⟩
      · rw [hch, hget]
        by_cases hip : i = p
        · simp only [hip, if_true] at hsame ⊢
          simp [hsame]
        · simp [hip, hsame]
      · rw [hkind fun h' => hi (List.mem_cons_of_mem m h'), hget]
        dsimp only
        rw [get_widenMember_of_ne _ _ _ fun h' => hi (by rw [h']; exact List.mem_cons_self)]
      · rw [hname, hget]
        exact (widenMember_sameShape t m construct typeName i).name

/-! ### Recording one declaration -/

/-- Putting a key into a list of strictly increasing keys, after those below it and before the
others, keeps the keys strictly increasing when the key is new. -/
theorem pairwise_insert_keys {x y : Nat} :
    ∀ {l : List (Nat × Nat)}, (l.map (·.1)).Pairwise (· < ·) → (∀ e ∈ l, e.1 ≠ x) →
      ((l.takeWhile (·.1 < x) ++ [(x, y)] ++ l.dropWhile (·.1 < x)).map (·.1)).Pairwise (· < ·)
  | [], _, _ => by simp
  | e :: l, hl, hx => by
    rw [List.map_cons, List.pairwise_cons] at hl
    have hex := hx e List.mem_cons_self
    by_cases he : e.1 < x
    · -- `e` stays in front of the new key
      have ih := pairwise_insert_keys (y := y) hl.2 fun e' he' => hx e' (List.mem_cons_of_mem e he')
      rw [List.takeWhile_cons_of_pos (by simpa using he), List.dropWhile_cons_of_pos (by simpa using he)]
      simp only [List.cons_append, List.map_cons, List.pairwise_cons]
      refine ⟨fun k hk => ?_, ih⟩
      obtain ⟨e', he', rfl⟩ := List.mem_map.1 hk
      rcases List.mem_append.1 he' with he' | he'
      · rcases List.mem_append.1 he' with he' | he'
        · exact hl.1 _ (List.mem_map_of_mem ((List.takeWhile_sublist _).subset he'))
        · rw [List.mem_singleton.1 he']
          exact he
      · exact hl.1 _ (List.mem_map_of_mem ((List.dropWhile_sublist _).subset he'))
    · -- the new key goes first, and `e` and the rest lie above it
      rw [List.takeWhile_cons_of_neg (by simpa using he), List.dropWhile_cons_of_neg (by simpa using he)]
      simp only [List.nil_append, List.singleton_append, List.map_cons, List.pairwise_cons]
      refine ⟨fun k hk => ?_, hl.1, hl.2⟩
      rcases List.mem_cons.1 hk with rfl | hk
      · omega
      · exact Nat.lt_trans (by omega) (hl.1 k hk)

/-- Adoption keeps the waiting declarations in order of their keys when the new one's key is
new. -/
theorem adoptMembers_sorted {st st' : FileScan} {id : Nat} {span : Span}
    {construct : Option String} (h : adoptMembers st id span construct = .ok st')
    (hs : (st.topLevel.map (·.1)).Pairwise (· < ·)) (hnew : ∀ e ∈ st.topLevel, e.1 ≠ span.start) :
    (st'.topLevel.map (·.1)).Pairwise (· < ·) := by
  unfold adoptMembers at h
  simp only [bind, Except.bind] at h
  split at h
  · cases h
  · cases h
    refine pairwise_insert_keys (hs.sublist (List.filter_sublist.map _)) fun e he => ?_
    exact hnew e (List.mem_of_mem_filter he)

/-- Storing a symbol past the waiting declarations changes none of the adoptees. -/
theorem adoptees_alloc {st : FileScan} (h : ∀ w ∈ st.waiting, w < st.tree.size) (s : Symbol)
    (anon : Nat) (span : Span) :
    adoptees { st with tree := (st.tree.alloc s).1, anonymous := anon } span = adoptees st span := by
  unfold adoptees
  congr 1
  refine List.filter_congr fun e he => ?_
  obtain ⟨a, b⟩ := e
  have hb : b < st.tree.size := h b (List.mem_map_of_mem he)
  simp only [get_alloc, if_neg (Nat.ne_of_lt hb)]

/-- What recording the declaration `d` does to the scan `st`, giving `st'`, when it adopts the
waiting declarations `adopted`: the declaration is stored last, in the file at its span and
without a parent; those it adopts hang below it as its children, in their order of waiting,
and no longer wait; nothing else moves, every other symbol keeps its kind, every old one its
name, and the new one, unless an anonymous class, has the declaration's name. -/
structure Recorded (st st' : FileScan) (d : Decl) (adopted : List Nat) : Prop where
  size : st'.tree.size = st.tree.size + 1
  file : st'.file = st.file
  span : ∀ i, (st'.tree.get i).span =
    if i = st.tree.size then some d.span else (st.tree.get i).span
  symbolFile : ∀ i, (st'.tree.get i).file =
    if i = st.tree.size then some st.file else (st.tree.get i).file
  parent : ∀ i, (st'.tree.get i).parent =
    if i ∈ adopted then some st.tree.size else (st.tree.get i).parent
  children : ∀ i, (st'.tree.get i).children.toList =
    if i = st.tree.size then adopted else (st.tree.get i).children.toList
  kind : ∀ i, i ≠ st.tree.size → i ∉ adopted → (st'.tree.get i).kind = (st.tree.get i).kind
  name : ∀ i, i ≠ st.tree.size → (st'.tree.get i).name = (st.tree.get i).name
  newName : d.isAnonymous = false → (st'.tree.get st.tree.size).name = d.name
  mem_topLevel : ∀ e, e ∈ st'.topLevel ↔
    e = (d.span.start, st.tree.size) ∨ (e ∈ st.topLevel ∧ e.2 ∉ adopted)
  sorted : (st.topLevel.map (·.1)).Pairwise (· < ·) → (∀ e ∈ st.topLevel, e.1 ≠ d.span.start) →
    (st'.topLevel.map (·.1)).Pairwise (· < ·)

/-- The span of each symbol once `d` is recorded: the new one lies at the span of `d`. -/
theorem Recorded.spanAt {st st' : FileScan} {d : Decl} {adopted : List Nat}
    (h : Recorded st st' d adopted) (i : Nat) :
    st'.tree.spanAt i = if i = st.tree.size then d.span else st.tree.spanAt i := by
  unfold SymbolTree.spanAt
  rw [h.span i]
  split <;> rfl

/-- Recording a declaration in a scan that keeps `Pending` succeeds and does what `Recorded`
says, adopting the waiting declarations after its start and inside its span. -/
theorem Pending.recorded {n scope : Nat} {st : FileScan} (h : Pending n scope st) (d : Decl) :
    ∃ st', Java.insert st d = .ok st' ∧ Recorded st st' d (adoptees st d.span) := by
  obtain ⟨s, anon, heq, hsp, hsc, hsf, hss, hspk, -, -, -, -, hsn⟩ := insert_decl st d
  have ha := h.adoptable hss anon
  have hlinked : (st.tree.alloc s).1.Linked :=
    h.linked.alloc hsp hsc fun f hf => by
      rw [hsf] at hf
      cases hf
      exact h.file_lt
  obtain ⟨t', hfold, hadopt⟩ := adopt_fold hlinked (by simp) ha d.keyword
    ((st.tree.alloc s).1.get st.tree.size).name
  obtain ⟨top, hok, hperm⟩ := @adoptMembers_ok
    { st with tree := (st.tree.alloc s).1, anonymous := anon } st.tree.size d.span d.keyword t'
    hfold
  have hch := adopt_fold_children (by simp) ha.lt hfold
  have hA := adoptees_alloc (fun w hw => (h.waiting w hw).lt) s anon d.span
  rw [hA] at hadopt hch hperm
  refine ⟨_, heq.trans hok, ?_⟩
  have hD : ∀ i, i = st.tree.size → (st.tree.get i) = default := fun i hi =>
    get_of_size_le (Nat.le_of_eq hi.symm)
  refine ⟨?_, rfl, fun i => ?_, fun i => ?_, fun i => ?_, fun i => ?_, fun i hi hia => ?_,
    fun i hi => ?_, fun hd => ?_, fun e => ?_, fun hs hnew => ?_⟩
  · rw [hadopt.size]
    simp
  · rw [(hadopt.place i).span, get_alloc]
    split <;> simp_all
  · rw [(hadopt.place i).file, get_alloc]
    split <;> simp_all
  · rw [hadopt.parent, get_alloc]
    split
    · rfl
    · split
      · rename_i hi
        rw [hsp, hD i hi]
        rfl
      · rfl
  · rw [(hch i).1, get_alloc]
    split
    · rename_i hi
      rw [hsc]
      rfl
    · rfl
  · rw [(hch i).2.1 hia, get_alloc, if_neg hi]
  · rw [(hch i).2.2, get_alloc, if_neg hi]
  · rw [(hch _).2.2, get_alloc, if_pos rfl]
    exact hsn hd
  · rw [(hperm.mem_iff)]
    simp only [List.mem_cons, List.mem_filter, Bool.not_eq_true', List.contains_eq_mem,
      decide_eq_false_iff_not]
  · exact adoptMembers_sorted hok hs hnew

/-- So a recording that succeeds does what `Recorded` says. -/
theorem Pending.recorded_of_insert {n scope : Nat} {st st' : FileScan} (h : Pending n scope st)
    {d : Decl} (hins : Java.insert st d = .ok st') : Recorded st st' d (adoptees st d.span) := by
  obtain ⟨st'', hins', hrec⟩ := h.recorded d
  rw [Except.ok.inj (hins.symm.trans hins')]
  exact hrec

/-! ### The invariant of the declaration loop -/

open Overlay

/-- What the declaration loop keeps about the declarations recorded so far, the symbols after
the scope `scope`, while it searches the view of `t`:

* each lies in the file, at a nonempty span of which nothing shows any longer;
* of two of them, the earlier lies apart from the later or strictly inside it;
* one with a parent lies inside it, and inside none recorded between the two;
* one without a parent waits, and lies inside none recorded after it;
* the waiting ones are kept by their starts, in increasing order, and the children of each are
  recorded ones, in the order of their starts; the scope has no children yet, and no symbol
  before it lies in the file. -/
structure Nested (scope : Nat) (t : Overlay) (st : FileScan) : Prop where
  onlyMasked : t.OnlyMasked
  located : ∀ i, scope < i → i < st.tree.size → (st.tree.get i).span = some (st.tree.spanAt i)
  nonempty : ∀ i, scope < i → i < st.tree.size → (st.tree.spanAt i).start < (st.tree.spanAt i).stop
  hidden : ∀ i, scope < i → i < st.tree.size → ∀ q, (st.tree.spanAt i).start ≤ q →
    q < (st.tree.spanAt i).stop → t.showsAt q = false
  laminar : ∀ i j, scope < i → i < j → j < st.tree.size →
    (st.tree.spanAt i).Disjoint (st.tree.spanAt j) ∨
      (st.tree.spanAt i).StrictlyInside (st.tree.spanAt j)
  parent : ∀ i p, scope < i → (st.tree.get i).parent = some p → i < p ∧ p < st.tree.size ∧
    (st.tree.spanAt p).contains (st.tree.spanAt i) = true ∧
    ∀ j, i < j → j < p → (st.tree.spanAt j).contains (st.tree.spanAt i) = false
  free : ∀ i, scope < i → i < st.tree.size → (st.tree.get i).parent = none → i ∈ st.waiting ∧
    ∀ j, i < j → j < st.tree.size → (st.tree.spanAt j).contains (st.tree.spanAt i) = false
  sorted : (st.topLevel.map (·.1)).Pairwise (· < ·)
  key : ∀ e ∈ st.topLevel, e.1 = (st.tree.spanAt e.2).start
  children : ∀ p, scope < p →
    ((st.tree.get p).children.toList.map fun c => (st.tree.spanAt c).start).Pairwise (· < ·)
  children_after : ∀ p c, scope < p → c ∈ (st.tree.get p).children.toList → scope < c
  scope_children : (st.tree.get scope).children.toList = []
  scope_kind : (st.tree.get scope).kind = .file
  file : ∀ i, scope < i → i < st.tree.size → (st.tree.get i).file = some st.file
  before : ∀ i, i < scope → (st.tree.get i).file ≠ some st.file

variable {n scope : Nat} {t : Overlay} {st : FileScan}

/-- The waiting declarations a new span adopts are those inside it, when it lies apart from or
around each recorded one. -/
theorem Nested.mem_adoptees (h : Nested scope t st) (hp : Pending n scope st) {s : Span}
    (hs : ∀ i, scope < i → i < st.tree.size →
      (st.tree.spanAt i).Disjoint s ∨ (st.tree.spanAt i).StrictlyInside s) (i : Nat) :
    i ∈ adoptees st s ↔ i ∈ st.waiting ∧ s.contains (st.tree.spanAt i) = true := by
  unfold adoptees
  simp only [List.mem_map, List.mem_filter, Bool.and_eq_true, decide_eq_true_eq]
  constructor
  · rintro ⟨⟨a, b⟩, ⟨he, hlt, hc⟩, rfl⟩
    have hw := (hp.waiting b (List.mem_map_of_mem he))
    rw [h.located b hw.after hw.lt] at hc
    exact ⟨List.mem_map_of_mem he, hc⟩
  · rintro ⟨hi, hc⟩
    obtain ⟨⟨a, b⟩, he, rfl⟩ := List.mem_map.1 hi
    dsimp only at hi hc
    have hw := hp.waiting b hi
    have hne := h.nonempty b hw.after hw.lt
    refine ⟨(a, b), ⟨he, ?_, ?_⟩, rfl⟩
    · -- a span that holds a recorded one holds it strictly
      rw [h.key _ he]
      dsimp only
      have hc' := Span.contains_iff.1 hc
      have hd := hs b hw.after hw.lt
      unfold Span.Disjoint Span.StrictlyInside at hd
      omega
    · dsimp only
      rw [h.located b hw.after hw.lt]
      exact hc

/-- Waiting declarations taken in their order of waiting come in the order of their starts. -/
theorem Nested.sorted_of_sublist (h : Nested scope t st) {l : List (Nat × Nat)}
    (hl : l.Sublist st.topLevel) :
    ((l.map (·.2)).map fun c => (st.tree.spanAt c).start).Pairwise (· < ·) := by
  have hkeys : l.map ((fun c => (st.tree.spanAt c).start) ∘ (·.2)) = l.map (·.1) :=
    List.map_congr_left fun e he => (h.key e (hl.subset he)).symm
  rw [List.map_map, hkeys]
  exact h.sorted.sublist (hl.map _)

/-- Recording the declaration found keeps the invariant, once its match is masked. -/
theorem Nested.insert (h : Nested scope t st) (hp : Pending n scope st) {m : Match}
    (hm : nextDeclaration t = some m) {st' : FileScan}
    (hins : Java.insert st (Decl.ofMatch t m) = .ok st') :
    Nested scope (t.mask m.start m.stop) st' := by
  have hrec := hp.recorded_of_insert hins
  have hS := nextDeclaration_spanShows h.onlyMasked hm
  set S := (Decl.ofMatch t m).span with hSdef
  have hsize := hrec.size
  have hscope := hp.scope_lt
  have hspanAt : ∀ i, st'.tree.spanAt i = if i = st.tree.size then S else st.tree.spanAt i :=
    hrec.spanAt
  -- the new span lies apart from, or around, each recorded one, whose spans show nothing
  have hnew : ∀ i, scope < i → i < st.tree.size →
      (st.tree.spanAt i).Disjoint S ∨ (st.tree.spanAt i).StrictlyInside S :=
    fun i hi hiD => disjoint_or_strictlyInside hS.first hS.last (h.hidden i hi hiD)
  have hA := h.mem_adoptees hp hnew
  have hAw : ∀ i ∈ adoptees st S, scope < i ∧ i < st.tree.size := fun i hi =>
    ⟨(hp.waiting i ((hA i).1 hi).1).after, (hp.waiting i ((hA i).1 hi).1).lt⟩
  -- masking the match hides the whole new span
  have hcover : ∀ q, S.start ≤ q → q < S.stop → (t.mask m.start m.stop).showsAt q = false := by
    intro q h1 h2
    have h2' : q < m.stop := hS.stop_eq ▸ h2
    obtain ⟨ha, hb⟩ := mem_widen (hS.start_le.trans h1) h2' (Nat.lt_of_lt_of_le h2' hS.stop_le)
    exact showsAt_mask_of_mem ha hb
  refine ⟨h.onlyMasked.mask _ _, ?located, ?nonempty, ?hidden, ?laminar, ?parent, ?free, ?sorted,
    ?key, ?children, ?children_after, ?scope_children, ?scope_kind, ?file, ?before⟩
  case located =>
    intro i hi hi'
    rw [hsize] at hi'
    rw [hrec.span, hspanAt]
    by_cases hiD : i = st.tree.size
    · rw [if_pos hiD, if_pos hiD]
    · rw [if_neg hiD, if_neg hiD]
      exact h.located i hi (by omega)
  case nonempty =>
    intro i hi hi'
    rw [hsize] at hi'
    rw [hspanAt]
    split
    · exact hS.lt
    · exact h.nonempty i hi (by omega)
  case hidden =>
    intro i hi hi' q h1 h2
    rw [hsize] at hi'
    rw [hspanAt] at h1 h2
    by_cases hiD : i = st.tree.size
    · rw [if_pos hiD] at h1 h2
      exact hcover q h1 h2
    · rw [if_neg hiD] at h1 h2
      exact showsAt_mask_of_false (h.hidden i hi (by omega) q h1 h2)
  case laminar =>
    intro i j hi hij hj
    rw [hsize] at hj
    rw [hspanAt i, hspanAt j, if_neg (by omega : i ≠ st.tree.size)]
    by_cases hjD : j = st.tree.size
    · rw [if_pos hjD]
      exact hnew i hi (by omega)
    · rw [if_neg hjD]
      exact h.laminar i j hi hij (by omega)
  case parent =>
    intro i p hi hpar
    rw [hrec.parent] at hpar
    by_cases hiA : i ∈ adoptees st S
    · -- adopted now, having waited: the new declaration is the first to hold it
      rw [if_pos hiA] at hpar
      obtain rfl := Option.some.inj hpar
      obtain ⟨hw, hc⟩ := (hA i).1 hiA
      have hWi := hp.waiting i hw
      refine ⟨hWi.lt, by omega, ?_, fun j hij hjD => ?_⟩
      · rw [hspanAt, hspanAt, if_pos rfl, if_neg (Nat.ne_of_lt hWi.lt)]
        exact hc
      · rw [hspanAt, hspanAt, if_neg (Nat.ne_of_lt hjD), if_neg (Nat.ne_of_lt hWi.lt)]
        exact (h.free i hi hWi.lt hWi.free).2 j hij hjD
    · rw [if_neg hiA] at hpar
      obtain ⟨hip, hpD, hc, hbetween⟩ := h.parent i p hi hpar
      refine ⟨hip, by omega, ?_, fun j hij hjp => ?_⟩
      · rw [hspanAt, hspanAt, if_neg (Nat.ne_of_lt hpD), if_neg (by omega)]
        exact hc
      · rw [hspanAt, hspanAt, if_neg (by omega), if_neg (by omega)]
        exact hbetween j hij hjp
  case free =>
    intro i hi hi' hpar
    rw [hsize] at hi'
    rw [hrec.parent] at hpar
    by_cases hiA : i ∈ adoptees st S
    · rw [if_pos hiA] at hpar
      cases hpar
    rw [if_neg hiA] at hpar
    by_cases hiD : i = st.tree.size
    · -- the new declaration waits, and nothing is recorded after it
      subst hiD
      exact ⟨List.mem_map_of_mem ((hrec.mem_topLevel _).2 (.inl rfl)), fun j hij hj => by omega⟩
    · obtain ⟨hw, hout⟩ := h.free i hi (by omega) hpar
      refine ⟨?_, fun j hij hj => ?_⟩
      · obtain ⟨e, he, rfl⟩ := List.mem_map.1 hw
        exact List.mem_map_of_mem ((hrec.mem_topLevel e).2 (.inr ⟨he, hiA⟩))
      · rw [hspanAt, hspanAt, if_neg hiD]
        by_cases hjD : j = st.tree.size
        · -- waiting and not adopted: the new span does not hold it
          rw [if_pos hjD]
          cases hcS : S.contains (st.tree.spanAt i)
          · rfl
          · exact absurd ((hA i).2 ⟨hw, hcS⟩) hiA
        · rw [if_neg hjD]
          exact hout j hij (by omega)
  case sorted =>
    refine hrec.sorted h.sorted fun e he => ?_
    show e.1 ≠ S.start
    have hw := hp.waiting e.2 (List.mem_map_of_mem he)
    have hne := h.nonempty e.2 hw.after hw.lt
    have hd := hnew e.2 hw.after hw.lt
    have hlt := hS.lt
    rw [h.key e he]
    unfold Span.Disjoint Span.StrictlyInside at hd
    omega
  case key =>
    intro e he
    rcases (hrec.mem_topLevel e).1 he with rfl | ⟨he, -⟩
    · rw [hspanAt, if_pos rfl]
    · have hw := hp.waiting e.2 (List.mem_map_of_mem he)
      rw [hspanAt, if_neg (Nat.ne_of_lt hw.lt)]
      exact h.key e he
  case children =>
    intro p hp'
    rw [hrec.children p]
    by_cases hpD : p = st.tree.size
    · -- the adopted come in their order of waiting
      rw [if_pos hpD, List.map_congr_left fun c hc => by
        rw [hspanAt, if_neg (Nat.ne_of_lt (hAw c hc).2)]]
      unfold adoptees
      exact h.sorted_of_sublist List.filter_sublist
    · rw [if_neg hpD, List.map_congr_left fun c hc => by
        rw [hspanAt, if_neg (Nat.ne_of_lt (hp.linked.lt_of_mem_children (Array.mem_toList_iff.1 hc)))]]
      exact h.children p hp'
  case children_after =>
    intro p c hp' hc
    rw [hrec.children p] at hc
    split at hc
    · exact (hAw c hc).1
    · exact h.children_after p c hp' hc
  case scope_children =>
    rw [hrec.children, if_neg (Nat.ne_of_lt hscope)]
    exact h.scope_children
  case scope_kind =>
    rw [hrec.kind scope (Nat.ne_of_lt hscope) fun hs => Nat.lt_irrefl _ (hAw scope hs).1]
    exact h.scope_kind
  case file =>
    intro i hi hi'
    rw [hsize] at hi'
    rw [hrec.symbolFile, hrec.file]
    split
    · rfl
    · exact h.file i hi (by omega)
  case before =>
    intro i hi
    rw [hrec.symbolFile, hrec.file, if_neg (by omega)]
    exact h.before i hi

/-- Masking more keeps the invariant: it hides more and moves nothing. -/
theorem Nested.maskAll (h : Nested scope t st) (prog : Program) :
    Nested scope (t.maskAll prog).1 st :=
  { h with
    onlyMasked := h.onlyMasked.maskAll prog
    hidden := fun i hi hi' q h1 h2 => showsAt_maskAll_of_false prog (h.hidden i hi hi' q h1 h2) }

/-- The declaration loop keeps the invariant: each round records the declaration found and
masks its match, or masks blocks. -/
theorem Nested.declarations :
    ∀ (fuel : Nat) (t : Overlay) (st st' : FileScan), t.size = n → Nested scope t st →
      Pending n scope st → Java.declarations fuel t st = .ok st' →
        ∃ t', Nested scope t' st' ∧ st'.file = st.file := by
  intro fuel t st st' ht h hp hrun
  -- recording keeps the file as well
  have hfile : ∀ {st₁ st₂ : FileScan} {d : Decl}, Pending n scope st₁ →
      Java.insert st₁ d = .ok st₂ → st₂.file = st₁.file := fun hp₁ hins =>
    (hp₁.recorded_of_insert hins).file
  obtain ⟨t', st'', hrun', -, h', hfile'⟩ := Pending.declarations_run
    (fun t st₁ => Nested scope t st₁ ∧ st₁.file = st.file)
    (fun _ _ _ _ hp₁ hP hm hins => ⟨hP.1.insert hp₁ hm hins, (hfile hp₁ hins).trans hP.2⟩)
    (fun _ _ hP => ⟨hP.1.maskAll blockProgram, hP.2⟩) fuel t st ht hp ⟨h, rfl⟩
  obtain rfl : st' = st'' := Except.ok.inj (hrun.symm.trans hrun')
  exact ⟨t', h', hfile'⟩

/-- At the end the file's scope adopts the declarations still waiting: they become its
children, in their order of waiting, nothing else moves, and no symbol is renamed. -/
theorem Pending.adopted_scope (h : Pending n scope st) :
    ∃ T, st.topLevel.foldlM (fun tree (x : Nat × Nat) => tree.nest scope x.2) st.tree = .ok T ∧
      Adopted st.tree T scope st.waiting ∧ ∀ i,
        (T.get i).children.toList =
            (if i = scope then (st.tree.get i).children.toList ++ st.waiting
              else (st.tree.get i).children.toList) ∧
          (i ∉ st.waiting → (T.get i).kind = (st.tree.get i).kind) ∧
          (T.get i).name = (st.tree.get i).name := by
  have ha := h.adoptable_scope
  obtain ⟨T, hfold, hadopt⟩ := adopt_fold h.linked h.scope_lt ha none ""
  refine ⟨T, ?_, hadopt, adopt_fold_children h.scope_lt ha.lt hfold⟩
  rw [FileScan.waiting, List.foldlM_map] at hfold
  exact hfold

/-! ### Where the loop starts -/

/-- Where the loop starts nothing is recorded after the file's scope, so the invariant holds
of every symbol past it vacuously. -/
theorem LoopStart.nested {tree T : SymbolTree} {content path : String} {t : Overlay} {scope : Nat}
    (h : LoopStart tree content T t scope) :
    Nested scope t { tree := T, file := tree.files.size, path, anonymous := 0, topLevel := [] } := by
  have hsize := h.size
  -- past the scope the tree holds only default symbols
  have hpast : ∀ i, scope < i → T.get i = default := fun i hi =>
    get_of_size_le (by omega)
  refine ⟨h.onlyMasked, fun i hi hi' => ?_, fun i hi hi' => ?_, fun i hi hi' => ?_,
    fun i j hi hij hj => ?_, fun i p hi hpar => ?_, fun i hi hi' => ?_, List.Pairwise.nil,
    fun e he => absurd he List.not_mem_nil, fun p hp => ?_, fun p c hp hc => ?_,
    by rw [h.children], h.kind, fun i hi hi' => ?_, h.before⟩
  all_goals dsimp only at *
  any_goals omega
  · rw [hpast i hi] at hpar
    cases hpar
  · rw [hpast p hp]
    exact List.Pairwise.nil
  · rw [hpast p hp] at hc
    cases hc

/-! ### How the recorded declarations nest -/

namespace Nested

variable {n scope : Nat} {t : Overlay} {st : FileScan}

theorem not_disjoint_of_contains (h : Nested scope t st) {i j : Nat} (hi : scope < i)
    (hi' : i < st.tree.size) (hc : (st.tree.spanAt j).contains (st.tree.spanAt i) = true) :
    ¬ (st.tree.spanAt i).Disjoint (st.tree.spanAt j) := by
  have hne := h.nonempty i hi hi'
  have hc' := Span.contains_iff.1 hc
  unfold Span.Disjoint
  omega

/-- A declaration recorded earlier does not hold a later one. -/
theorem not_contains_of_lt (h : Nested scope t st) {i j : Nat} (hj : scope < j) (hji : j < i)
    (hi : i < st.tree.size) : (st.tree.spanAt j).contains (st.tree.spanAt i) = false := by
  cases hc : (st.tree.spanAt j).contains (st.tree.spanAt i)
  · rfl
  · have hne := h.nonempty i (by omega) hi
    have hc' := Span.contains_iff.1 hc
    have hl := h.laminar j i hj hji hi
    unfold Span.Disjoint Span.StrictlyInside at hl
    omega

/-- A later declaration that holds an earlier one holds it strictly. -/
theorem strictlyInside_of_contains (h : Nested scope t st) {i j : Nat} (hi : scope < i)
    (hij : i < j) (hj : j < st.tree.size)
    (hc : (st.tree.spanAt j).contains (st.tree.spanAt i) = true) :
    (st.tree.spanAt i).StrictlyInside (st.tree.spanAt j) :=
  (h.laminar i j hi hij hj).resolve_left (h.not_disjoint_of_contains hi (by omega) hc)

/-- No two recorded declarations start at one offset. -/
theorem start_ne (h : Nested scope t st) {i j : Nat} (hi : scope < i) (hij : i < j)
    (hj : j < st.tree.size) : (st.tree.spanAt i).start ≠ (st.tree.spanAt j).start := by
  have hl := h.laminar i j hi hij hj
  have hne := h.nonempty i hi (by omega)
  have hne' := h.nonempty j (by omega) hj
  unfold Span.Disjoint Span.StrictlyInside at hl
  omega

/-- A declaration left without a parent lies inside no other recorded one. -/
theorem free_alone (h : Nested scope t st) {i : Nat} (hi : scope < i) (hi' : i < st.tree.size)
    (hpar : (st.tree.get i).parent = none) {j : Nat} (hj : scope < j) (hj' : j < st.tree.size)
    (hji : j ≠ i) : (st.tree.spanAt j).contains (st.tree.spanAt i) = false := by
  rcases Nat.lt_or_gt_of_ne hji with hlt | hlt
  · exact h.not_contains_of_lt hj hlt hi'
  · exact (h.free i hi hi' hpar).2 j hlt hj'

/-- A declaration's parent is the smallest recorded one around it: every other recorded
declaration that holds it holds the parent too. -/
theorem contains_parent (h : Nested scope t st) {i p : Nat} (hi : scope < i)
    (hi' : i < st.tree.size) (hpar : (st.tree.get i).parent = some p) {j : Nat} (hj : scope < j)
    (hj' : j < st.tree.size) (hji : j ≠ i)
    (hcj : (st.tree.spanAt j).contains (st.tree.spanAt i) = true) :
    (st.tree.spanAt j).contains (st.tree.spanAt p) = true := by
  obtain ⟨hip, hpD, hc, hbetween⟩ := h.parent i p hi hpar
  -- only a later declaration holds `i`, and none before `p`
  rcases Nat.lt_or_gt_of_ne hji with hlt | hlt
  · rw [h.not_contains_of_lt hj hlt hi'] at hcj
    cases hcj
  rcases Nat.lt_trichotomy j p with hjp | rfl | hjp
  · rw [hbetween j hlt hjp] at hcj
    cases hcj
  · exact Span.contains_self _
  · -- both hold `i`, so the later one holds `p`
    have hne := h.nonempty i hi hi'
    have hc₁ := Span.contains_iff.1 hc
    have hc₂ := Span.contains_iff.1 hcj
    have hl := h.laminar p j (by omega) hjp hj'
    unfold Span.Disjoint Span.StrictlyInside at hl
    rw [Span.contains_iff]
    omega

end Nested

end Java

namespace SymbolTree

/-- A declaration recorded in the file `file` whose scope is `scope`: a symbol located in the
file other than its scope. -/
def Declared (t : SymbolTree) (file scope i : Nat) : Prop :=
  i < t.size ∧ (t.get i).file = some file ∧ i ≠ scope

/-- How the declarations recorded in `file`, whose scope is `scope`, nest by their spans:

* each is located, and no two start at one offset;
* of two, one lies apart from the other or strictly inside it;
* the container of each is the recorded declaration with the smallest span around its own,
  strictly, or the scope when no other recorded declaration holds it;
* the children of the scope and of each declaration come in the order of their starts. -/
structure NestedBySpan (t : SymbolTree) (file scope : Nat) : Prop where
  located : ∀ i, t.Declared file scope i → (t.get i).span = some (t.spanAt i)
  distinct : ∀ i j, t.Declared file scope i → t.Declared file scope j → i ≠ j →
    (t.spanAt i).start ≠ (t.spanAt j).start
  laminar : ∀ i j, t.Declared file scope i → t.Declared file scope j → i ≠ j →
    (t.spanAt i).Disjoint (t.spanAt j) ∨ (t.spanAt i).StrictlyInside (t.spanAt j) ∨
      (t.spanAt j).StrictlyInside (t.spanAt i)
  container : ∀ i, t.Declared file scope i → ∃ p, (t.get i).parent = some p ∧
    ((t.Declared file scope p ∧ (t.spanAt i).StrictlyInside (t.spanAt p) ∧
        ∀ j, t.Declared file scope j → j ≠ i → (t.spanAt j).contains (t.spanAt i) = true →
          (t.spanAt j).contains (t.spanAt p) = true) ∨
      (p = scope ∧ ∀ j, t.Declared file scope j → j ≠ i →
        (t.spanAt j).contains (t.spanAt i) = false))
  ordered : ∀ p, p = scope ∨ t.Declared file scope p →
    ((t.get p).children.toList.map fun c => (t.spanAt c).start).Pairwise (· < ·)

end SymbolTree

namespace Java

open SymbolTree

variable {n scope : Nat} {t : Overlay} {st : FileScan}

/-- Once the file's scope adopts the declarations left waiting, the recorded declarations nest
by their spans. -/
theorem Nested.nestedBySpan (h : Nested scope t st) (hp : Pending n scope st) {T : SymbolTree}
    (hadopt : Adopted st.tree T scope st.waiting)
    (hch : ∀ i, (T.get i).children.toList = if i = scope then
      (st.tree.get i).children.toList ++ st.waiting else (st.tree.get i).children.toList) :
    T.NestedBySpan st.file scope := by
  have hspanAt : ∀ i, T.spanAt i = st.tree.spanAt i := fun i => by
    unfold SymbolTree.spanAt
    rw [(hadopt.place i).span]
  -- the recorded declarations are the symbols past the scope
  have hdecl : ∀ i, T.Declared st.file scope i ↔ scope < i ∧ i < st.tree.size := by
    intro i
    unfold Declared
    rw [hadopt.size, (hadopt.place i).file]
    constructor
    · rintro ⟨hi, hf, hne⟩
      refine ⟨Nat.lt_of_le_of_ne (Nat.le_of_not_lt fun hlt => h.before i hlt hf) hne.symm, hi⟩
    · rintro ⟨hi, hi'⟩
      exact ⟨hi', h.file i hi hi', Nat.ne_of_gt hi⟩
  refine ⟨fun i hi => ?_, fun i j hi hj hij => ?_, fun i j hi hj hij => ?_, fun i hi => ?_,
    fun p hp' => ?_⟩
  · obtain ⟨hi, hi'⟩ := (hdecl i).1 hi
    rw [(hadopt.place i).span, hspanAt]
    exact h.located i hi hi'
  · obtain ⟨hi, hi'⟩ := (hdecl i).1 hi
    obtain ⟨hj, hj'⟩ := (hdecl j).1 hj
    rw [hspanAt, hspanAt]
    rcases Nat.lt_or_gt_of_ne hij with hlt | hlt
    · exact h.start_ne hi hlt hj'
    · exact (h.start_ne hj hlt hi').symm
  · obtain ⟨hi, hi'⟩ := (hdecl i).1 hi
    obtain ⟨hj, hj'⟩ := (hdecl j).1 hj
    rw [hspanAt, hspanAt]
    rcases Nat.lt_or_gt_of_ne hij with hlt | hlt
    · rcases h.laminar i j hi hlt hj' with hd | hs
      · exact .inl hd
      · exact .inr (.inl hs)
    · rcases h.laminar j i hj hlt hi' with hd | hs
      · unfold Span.Disjoint at hd ⊢
        exact .inl hd.symm
      · exact .inr (.inr hs)
  · obtain ⟨hi, hi'⟩ := (hdecl i).1 hi
    cases hpar : (st.tree.get i).parent with
    | none =>
      -- left waiting: the scope adopts it
      refine ⟨scope, by rw [hadopt.parent, if_pos (h.free i hi hi' hpar).1],
        .inr ⟨rfl, fun j hj hji => ?_⟩⟩
      obtain ⟨hj, hj'⟩ := (hdecl j).1 hj
      rw [hspanAt, hspanAt]
      exact h.free_alone hi hi' hpar hj hj' hji
    | some p =>
      obtain ⟨hip, hpD, hc, -⟩ := h.parent i p hi hpar
      have hkept := hadopt.parent_kept (fun m hm => (hp.waiting m hm).free) i p hpar
      refine ⟨p, hkept, .inl ⟨(hdecl p).2 ⟨by omega, hpD⟩, ?_, fun j hj hji hcj => ?_⟩⟩
      · rw [hspanAt, hspanAt]
        exact h.strictlyInside_of_contains hi hip hpD hc
      · obtain ⟨hj, hj'⟩ := (hdecl j).1 hj
        rw [hspanAt, hspanAt] at hcj ⊢
        exact h.contains_parent hi hi' hpar hj hj' hji hcj
  · rw [hch p]
    rcases hp' with rfl | hp'
    · -- the scope's children are those left waiting, in their order of waiting
      rw [if_pos rfl, h.scope_children, List.nil_append,
        List.map_congr_left fun c _ => by rw [hspanAt c], FileScan.waiting]
      exact h.sorted_of_sublist (List.Sublist.refl _)
    · obtain ⟨hp', -⟩ := (hdecl p).1 hp'
      rw [if_neg (Nat.ne_of_gt hp'), List.map_congr_left fun c _ => by rw [hspanAt c]]
      exact h.children p hp'

end Java

/-- A scan of a Java text into a shaped tree succeeds, with the file's scope located at the
whole text, and records the file's declarations nested by their spans: no two start at one
offset, of two one lies apart from the other or strictly inside it, each hangs below the
smallest recorded declaration around it or else below the file's scope, and every list of
children comes in the order of the text, although the scan finds the innermost declarations
first. -/
theorem java_declarations_nest {tree : SymbolTree} (h : tree.Shaped) (path content : String) :
    ∃ T scope, Java.scan tree path content = .ok (T, tree.files.size) ∧ scope < T.size ∧
      (T.get scope).kind = .file ∧ (T.get scope).file = some tree.files.size ∧
      (T.get scope).span = some ⟨0, content.utf8ByteSize⟩ ∧
      T.NestedBySpan tree.files.size scope := by
  obtain ⟨T, t, scope, hs, heq⟩ := Java.scan_start h path content
  have hpend := hs.pending path
  obtain ⟨st, hdecl, hst⟩ := Java.Pending.declarations (t.size + 1) t _ rfl hpend
  obtain ⟨t', hN, hfile⟩ := Java.Nested.declarations (t.size + 1) t _ st rfl hs.nested hpend hdecl
  replace hfile : st.file = tree.files.size := hfile
  obtain ⟨T', hfold, hadopt, hch⟩ := hst.adopted_scope
  have hscope : scope ∉ st.waiting := fun hw => Nat.lt_irrefl _ (hst.waiting scope hw).after
  refine ⟨T', scope, ?_, by rw [hadopt.size]; exact hst.scope_lt, ?_, ?_, ?_, ?_⟩
  · rw [heq]
    exact Java.bind_adopt_ok _ hdecl hfold
  · rw [(hch scope).2.1 hscope]
    exact hN.scope_kind
  · rw [(hadopt.place scope).file, hst.scope_file, hfile]
  · rw [(hadopt.place scope).span, hst.scope_span, hs.view_size]
  · rw [← hfile]
    exact hN.nestedBySpan hst hadopt fun i => (hch i).1

/-- A one-class Java file read into a new tree, its declarations nested. -/
theorem java_declarations_nest_new :
    ∃ T scope, Java.scan (SymbolTree.new "shop" "java") "A.java" "class A \x7b void f() \x7b\x7d \x7d" =
        .ok (T, (SymbolTree.new "shop" "java").files.size) ∧ scope < T.size ∧
      (T.get scope).kind = .file ∧ (T.get scope).file = some (SymbolTree.new "shop" "java").files.size ∧
      (T.get scope).span = some ⟨0, "class A \x7b void f() \x7b\x7d \x7d".utf8ByteSize⟩ ∧
      T.NestedBySpan (SymbolTree.new "shop" "java").files.size scope :=
  java_declarations_nest (SymbolTree.shaped_new "shop" "java") _ _

end Lineage
