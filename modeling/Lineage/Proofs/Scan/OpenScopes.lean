import Lineage.Proofs.Scan.Python
import Lineage.Proofs.Scan.Nesting
/-!
Which declaration a Python header is nested in.

The Python scanner keeps the declarations whose bodies may still hold the next header on a
stack, innermost on top, with the module at the bottom. Before a header is recorded the stack
drops from its top every declaration that does not keep the header's span open (its span does
not contain the header's, or ends where the header starts); the header is nested in the top
of what is left and pushed.

Headers are not always recorded in the order of the text: a header whose parameter list
holds an unbalanced bracket matches only once the bracket is masked, after headers below it.
A declaration dropped for one header is then gone for every later one, also for a header its
span contains. What the stack holds is a function of the recorded spans alone, `openStack`:
each recorded declaration that keeps open every span recorded after it.

* `closeScopes_of_pairwise`: on such a stack, closing scopes drops exactly the declarations
  that do not keep the new span open;
* `mem_openStack`, `openStack_sorted`: the stack holds the declarations that keep open all
  later spans, the latest on top;
* `Stacked.insert`, `Stacked.headers`: the header loop keeps the stack so, and nests each
  header in the top of what is left;
* `headers_nest_in_open_scope`: every declaration a scan records is nested in the most
  recently recorded one that keeps open its span and every span recorded in between, or,
  when there is none, in the module the file fills.
-/
namespace Lineage

/-- A span keeps a later one open when it contains it and the later one starts before it
ends: the test by which the scanner leaves a declaration open for the next header. -/
def Span.keeps (top span : Span) : Bool := span.start < top.stop && top.contains span

namespace Span

theorem keeps_iff {top span : Span} :
    top.keeps span = true ↔
      span.start < top.stop ∧ top.start ≤ span.start ∧ span.stop ≤ top.stop := by
  simp [keeps, contains_iff]

theorem keeps_trans {a b c : Span} (hab : a.keeps b = true) (hbc : b.keeps c = true) :
    a.keeps c = true := by
  rw [keeps_iff] at *
  omega

/-- The test by which closing scopes drops a declaration is the negation of `keeps`. -/
theorem closes_eq_not_keeps (top span : Span) :
    (decide (top.stop ≤ span.start) || !top.contains span) = !top.keeps span := by
  cases h : top.contains span
  · simp [keeps, h]
  · by_cases hle : top.stop ≤ span.start
    · simp [keeps, h, hle]
    · simp [keeps, h, hle, Nat.lt_of_not_le hle]

end Span

namespace Python

/-- The declarations left open after recording `recorded` in order, innermost first: each
recorded declaration is pushed on top of those that keep its span open. -/
def openStack (recorded : List (Nat × Span)) : List (Nat × Span) :=
  recorded.foldl (fun stk x => x :: stk.filter fun e => e.2.keeps x.2) []

@[simp] theorem openStack_nil : openStack [] = [] := rfl

@[simp] theorem openStack_append_singleton (recorded : List (Nat × Span)) (x : Nat × Span) :
    openStack (recorded ++ [x]) = x :: (openStack recorded).filter fun e => e.2.keeps x.2 := by
  simp only [openStack, List.foldl_append, List.foldl_cons, List.foldl_nil]

/-- Every declaration on the stack keeps open the ones above it. -/
theorem pairwise_openStack (recorded : List (Nat × Span)) :
    (openStack recorded).Pairwise fun a b => b.2.keeps a.2 := by
  induction recorded using List.reverseRecOn with
  | nil => exact List.Pairwise.nil
  | append_singleton recorded x ih =>
    rw [openStack_append_singleton, List.pairwise_cons]
    exact ⟨fun e he => (List.mem_filter.1 he).2, ih.filter _⟩

/-- On a stack whose declarations keep open the ones above them, closing scopes for a span
drops exactly those that do not keep it open: once the top keeps it open, so does every
declaration below. -/
theorem closeScopes_of_pairwise (span : Span) (bottom : Nat × Span) :
    ∀ stk : List (Nat × Span), stk.Pairwise (fun a b => b.2.keeps a.2) →
      closeScopes span (stk ++ [bottom]) = stk.filter (fun e => e.2.keeps span) ++ [bottom]
  | [], _ => rfl
  | x :: rest, h => by
    obtain ⟨hbelow, hrest⟩ := List.pairwise_cons.1 h
    obtain ⟨f, rest', hfr⟩ : ∃ f rest', rest ++ [bottom] = f :: rest' :=
      List.exists_cons_of_ne_nil (by simp)
    rw [List.cons_append, hfr, closeScopes_cons_cons, Span.closes_eq_not_keeps, ← hfr]
    by_cases hx : x.2.keeps span = true
    · have hall : rest.filter (fun e => e.2.keeps span) = rest :=
        List.filter_eq_self.2 fun e he => Span.keeps_trans (hbelow e he) hx
      simp [hx, hall]
    · rw [closeScopes_of_pairwise span bottom rest hrest]
      simp [hx]

/-- A declaration is on the stack exactly when it was recorded and keeps open every span
recorded after it. -/
theorem mem_openStack {recorded : List (Nat × Span)} {e : Nat × Span} :
    e ∈ openStack recorded ↔
      ∃ j : Nat, recorded[j]? = some e ∧
        ∀ (l : Nat) (y : Nat × Span), j < l → recorded[l]? = some y → e.2.keeps y.2 = true := by
  induction recorded using List.reverseRecOn with
  | nil => simp
  | append_singleton recorded x ih =>
    rw [openStack_append_singleton, List.mem_cons, List.mem_filter, ih]
    constructor
    · rintro (rfl | ⟨⟨j, hj, hlater⟩, hkeeps⟩)
      · -- the declaration just pushed: nothing was recorded after it
        refine ⟨recorded.length, by simp, fun l y hl hy => ?_⟩
        rw [List.getElem?_eq_none (by simp; omega)] at hy
        cases hy
      · have hjR : j < recorded.length := (List.getElem?_eq_some_iff.1 hj).1
        refine ⟨j, by rwa [List.getElem?_append_left hjR], fun l y hl hy => ?_⟩
        rcases Nat.lt_or_ge l recorded.length with hlR | hlR
        · rw [List.getElem?_append_left hlR] at hy
          exact hlater l y hl hy
        · -- the one recorded after all others is `x`
          rw [List.getElem?_append_right hlR, List.getElem?_singleton] at hy
          split at hy
          · cases hy
            exact hkeeps
          · cases hy
    · rintro ⟨j, hj, hlater⟩
      rcases Nat.lt_or_ge j recorded.length with hjR | hjR
      · rw [List.getElem?_append_left hjR] at hj
        refine .inr ⟨⟨j, hj, fun l y hl hy => ?_⟩, hlater _ x hjR (by simp)⟩
        have hlR : l < recorded.length := (List.getElem?_eq_some_iff.1 hy).1
        exact hlater l y hl (by rwa [List.getElem?_append_left hlR])
      · rw [List.getElem?_append_right hjR, List.getElem?_singleton] at hj
        split at hj
        · cases hj
          exact .inl rfl
        · cases hj

/-- When declarations are numbered in the order they are recorded, the stack holds them
latest first. -/
theorem openStack_sorted {recorded : List (Nat × Span)} {base : Nat}
    (hids : ∀ (j : Nat) e, recorded[j]? = some e → e.1 = base + j) :
    (openStack recorded).Pairwise fun a b => b.1 < a.1 := by
  induction recorded using List.reverseRecOn with
  | nil => exact List.Pairwise.nil
  | append_singleton recorded x ih =>
    have hold : ∀ (j : Nat) e, recorded[j]? = some e → e.1 = base + j := fun j e he => by
      have hjR : j < recorded.length := (List.getElem?_eq_some_iff.1 he).1
      exact hids j e (by rwa [List.getElem?_append_left hjR])
    have hx : x.1 = base + recorded.length := hids _ x (by simp)
    rw [openStack_append_singleton, List.pairwise_cons]
    refine ⟨fun e he => ?_, (ih hold).filter _⟩
    obtain ⟨j, hj, -⟩ := mem_openStack.1 (List.mem_filter.1 he).1
    have hjR : j < recorded.length := (List.getElem?_eq_some_iff.1 hj).1
    rw [hold j e hj, hx]
    omega

/-- Declaration `j` of the records is open for `span`: it keeps open `span` and every span
recorded after it. -/
def OpenFor (recorded : List (Nat × Span)) (span : Span) (j : Nat) : Prop :=
  ∃ e, recorded[j]? = some e ∧ e.2.keeps span = true ∧
    ∀ (l : Nat) (y : Nat × Span), j < l → recorded[l]? = some y → e.2.keeps y.2 = true

/-- What is left on top after closing scopes for `span` is the latest declaration open for
it, or nothing when none is. -/
theorem head?_filter_openStack {recorded : List (Nat × Span)} {base : Nat}
    (hids : ∀ (j : Nat) e, recorded[j]? = some e → e.1 = base + j) (span : Span) :
    (∃ j, OpenFor recorded span j ∧ (∀ j', j < j' → ¬ OpenFor recorded span j') ∧
        ((openStack recorded).filter fun e => e.2.keeps span).head?.map Prod.fst =
          some (base + j)) ∨
      ((∀ j, ¬ OpenFor recorded span j) ∧
        ((openStack recorded).filter fun e => e.2.keeps span).head? = none) := by
  -- a declaration open for the span is left on the stack
  have hmem : ∀ j, OpenFor recorded span j →
      ∃ e, recorded[j]? = some e ∧ e ∈ (openStack recorded).filter fun e => e.2.keeps span := by
    rintro j ⟨e, hj, hkeeps, hlater⟩
    exact ⟨e, hj, List.mem_filter.2 ⟨mem_openStack.2 ⟨j, hj, hlater⟩, hkeeps⟩⟩
  have hsorted := (openStack_sorted hids).filter fun e => e.2.keeps span
  cases htop : (openStack recorded).filter fun e => e.2.keeps span with
  | nil =>
    refine .inr ⟨fun j hj => ?_, rfl⟩
    obtain ⟨e, -, he⟩ := hmem j hj
    rw [htop] at he
    cases he
  | cons e rest =>
    have he : e ∈ (openStack recorded).filter fun e => e.2.keeps span := by
      rw [htop]
      exact List.mem_cons_self
    obtain ⟨hstack, hkeeps⟩ := List.mem_filter.1 he
    obtain ⟨j, hj, hlater⟩ := mem_openStack.1 hstack
    rw [htop, List.pairwise_cons] at hsorted
    refine .inl ⟨j, ⟨e, hj, hkeeps, hlater⟩, fun j' hjj' hopen => ?_, by simp [hids j e hj]⟩
    -- one recorded later would lie above `e`, yet the stack is latest first
    obtain ⟨e', hj', he'⟩ := hmem j' hopen
    rw [htop] at he'
    have hlt : e.1 < e'.1 := by
      rw [hids j e hj, hids j' e' hj']
      omega
    rcases List.mem_cons.1 he' with rfl | hrest
    · exact Nat.lt_irrefl _ hlt
    · exact Nat.lt_asymm hlt (hsorted.1 e' hrest)

/-- Declaration `j` is still open when declaration `k` is recorded: it was recorded before,
and its span keeps open every span recorded after it, up to and including `k`'s. -/
def OpenAt (spans : List Span) (j k : Nat) : Prop :=
  j < k ∧ ∃ S, spans[j]? = some S ∧
    ∀ (l : Nat) (T : Span), j < l → l ≤ k → spans[l]? = some T → S.keeps T = true

/-- Being open for the `k`-th span among the records before it is being open at `k`. -/
theorem openFor_take_iff {recorded : List (Nat × Span)} {k : Nat} {x : Nat × Span}
    (hk : recorded[k]? = some x) (j : Nat) :
    OpenFor (recorded.take k) x.2 j ↔ OpenAt (recorded.map Prod.snd) j k := by
  constructor
  · rintro ⟨e, hj, hkeeps, hlater⟩
    have hjk : j < k := by
      have := (List.getElem?_eq_some_iff.1 hj).1
      simp only [List.length_take] at this
      omega
    rw [List.getElem?_take_of_lt hjk] at hj
    refine ⟨hjk, e.2, by simp [hj], fun l T hjl hlk hT => ?_⟩
    rcases Nat.lt_or_eq_of_le hlk with hlk | rfl
    · obtain ⟨y, hy, rfl⟩ : ∃ y, recorded[l]? = some y ∧ y.2 = T := by simpa using hT
      exact hlater l y hjl (by rwa [List.getElem?_take_of_lt hlk])
    · -- the span of `k` itself
      obtain rfl : x.2 = T := by simpa [hk] using hT
      exact hkeeps
  · rintro ⟨hjk, S, hS, hlater⟩
    obtain ⟨e, hj, rfl⟩ : ∃ e, recorded[j]? = some e ∧ e.2 = S := by simpa using hS
    refine ⟨e, by rwa [List.getElem?_take_of_lt hjk],
      hlater k x.2 hjk (Nat.le_refl k) (by simp [hk]), fun l y hjl hy => ?_⟩
    have hlk : l < k := by
      have := (List.getElem?_eq_some_iff.1 hy).1
      simp only [List.length_take] at this
      omega
    rw [List.getElem?_take_of_lt hlk] at hy
    exact hlater l y.2 hjl (Nat.le_of_lt hlk) (by simp [hy])

/-! ### The header loop -/

theorem getElem?_append_singleton_eq_some {α : Type} {xs : List α} {x e : α} {j : Nat}
    (h : (xs ++ [x])[j]? = some e) :
    (j < xs.length ∧ xs[j]? = some e) ∨ (j = xs.length ∧ e = x) := by
  rw [List.getElem?_append] at h
  split at h
  · exact .inl ⟨‹_›, h⟩
  · rw [List.getElem?_singleton] at h
    split at h
    · cases h
      exact .inr ⟨by omega, rfl⟩
    · cases h

/-- What the header loop keeps about nesting, for declarations numbered from `base` in the
order they are recorded and a module with a text of `n` bytes at the bottom of the stack:
the stack is `openStack` of the records, and each recorded declaration lies in the file, at
its span, below the top of what the stack had left open for it. -/
structure Stacked (base module n file : Nat) (st : ModuleScan) : Prop where
  inFile : st.file = file
  ids : ∀ (j : Nat) e, st.recorded[j]? = some e → e.1 = base + j
  size : st.tree.size = base + st.recorded.length
  stack : st.enclosing = openStack st.recorded ++ [(module, ⟨0, n⟩)]
  located : ∀ (k : Nat) e, st.recorded[k]? = some e →
    (st.tree.get e.1).file = some file ∧ (st.tree.get e.1).span = some e.2
  nested : ∀ (k : Nat) e, st.recorded[k]? = some e → (st.tree.get e.1).parent =
    some ((((openStack (st.recorded.take k)).filter fun o => o.2.keeps e.2).head?.map Prod.fst).getD
      module)

open SymbolTree in
/-- Recording a header keeps `Stacked`: closing scopes leaves the declarations open for its
span above the module, and the header is nested in the top one. -/
theorem Stacked.insert {base module n file : Nat} {st st' : ModuleScan}
    (hs : Stacked base module n file st) (hst : Open n module st) {h : Header} {span : Span}
    (hins : Python.insert st h span = .ok st') : Stacked base module n file st' := by
  obtain ⟨s, heq, -, -, hsf, hss, -⟩ := insert_cases st h span
  have hclose : closeScopes span st.enclosing =
      ((openStack st.recorded).filter fun o => o.2.keeps span) ++ [(module, ⟨0, n⟩)] := by
    rw [hs.stack]
    exact closeScopes_of_pairwise span _ _ (pairwise_openStack _)
  -- the header's parent: the top of what is left, a stored scope
  have hpar : ((closeScopes span st.enclosing).head?.map (·.1)).getD 0 =
      (((openStack st.recorded).filter fun o => o.2.keeps span).head?.map Prod.fst).getD
        module := by
    rw [hclose]
    cases (openStack st.recorded).filter fun o => o.2.keeps span <;> rfl
  have hplt : ((closeScopes span st.enclosing).head?.map (·.1)).getD 0 < st.tree.size := by
    obtain ⟨pre, hpre⟩ := hst.bottom
    obtain ⟨e, pre', hcl, -, hsub, -⟩ := closeScopes_spec span (module, ⟨0, n⟩) pre
    rw [← hpre] at hcl hsub
    rw [hcl]
    exact (hst.scopes e (hsub e List.mem_cons_self)).1
  rw [heq] at hins
  generalize ((closeScopes span st.enclosing).head?.map (·.1)).getD 0 = p at hpar hplt hins
  cases hn : (st.tree.alloc s).1.nest p st.tree.size with
  | error err =>
    rw [hn] at hins
    cases hins
  | ok tree' =>
    rw [hn] at hins
    obtain rfl := (Except.ok.inj hins).symm
    obtain rfl := nest_ok hn
    have hget := get_link (t := (st.tree.alloc s).1) (by simpa using Nat.lt_succ_of_lt hplt)
      (by simp : st.tree.size < (st.tree.alloc s).1.size)
    -- symbols stored before keep their place and parent; the new one is placed below `p`
    have hold : ∀ i, i < st.tree.size →
        (((st.tree.alloc s).1.link p st.tree.size).get i).file = (st.tree.get i).file ∧
        (((st.tree.alloc s).1.link p st.tree.size).get i).span = (st.tree.get i).span ∧
        (((st.tree.alloc s).1.link p st.tree.size).get i).parent = (st.tree.get i).parent := by
      intro i hi
      rw [hget i, get_alloc, if_neg (Nat.ne_of_lt hi)]
      simp [Nat.ne_of_lt hi]
    have hnew : (((st.tree.alloc s).1.link p st.tree.size).get st.tree.size).file = some file ∧
        (((st.tree.alloc s).1.link p st.tree.size).get st.tree.size).span = some span ∧
        (((st.tree.alloc s).1.link p st.tree.size).get st.tree.size).parent = some p := by
      rw [hget, get_alloc, if_pos rfl]
      simp [hsf, hss, hs.inFile]
    have hidlt : ∀ (k : Nat) o, st.recorded[k]? = some o → o.1 < st.tree.size := by
      intro k o ho
      rw [hs.ids k o ho, hs.size]
      have := (List.getElem?_eq_some_iff.1 ho).1
      omega
    refine ⟨hs.inFile, fun j o ho => ?_, by simp [hs.size]; omega, ?_, fun k o ho => ?_,
      fun k o ho => ?_⟩
    · rcases getElem?_append_singleton_eq_some ho with ⟨-, ho⟩ | ⟨rfl, rfl⟩
      · exact hs.ids j o ho
      · exact hs.size
    · show (st.tree.size, span) :: closeScopes span st.enclosing = _
      rw [openStack_append_singleton, hclose]
      rfl
    · rcases getElem?_append_singleton_eq_some ho with ⟨-, ho⟩ | ⟨-, rfl⟩
      · obtain ⟨hf, hsp, -⟩ := hold o.1 (hidlt k o ho)
        rw [hf, hsp]
        exact hs.located k o ho
      · exact ⟨hnew.1, hnew.2.1⟩
    · rcases getElem?_append_singleton_eq_some ho with ⟨hk, ho⟩ | ⟨rfl, rfl⟩
      · rw [(hold o.1 (hidlt k o ho)).2.2, List.take_append_of_le_length (Nat.le_of_lt hk)]
        exact hs.nested k o ho
      · rw [hnew.2.2, List.take_left' rfl, hpar]

/-- The header loop keeps `Stacked` and never fails. -/
theorem Stacked.headers {base module n file : Nat} (fuel : Nat) (t : Overlay) (st : ModuleScan)
    (ht : t.size = n) (hst : Open n module st) (hs : Stacked base module n file st) :
    ∃ t' st', Python.headers fuel t st = .ok (t', st') ∧ Stacked base module n file st' := by
  obtain ⟨t', st', hrun, -, hs'⟩ := Open.headers_induction (Stacked base module n file)
    (fun _ _ _ _ hst hs hins => hs.insert hst hins) fuel t st ht hst hs
  exact ⟨t', st', hrun, hs'⟩

/-! ### A whole scan -/

/-- Every declaration a scan of a Python text records lies in the file, at its span, and is
nested in the most recently recorded declaration still open for it (`OpenAt`), or, when none
is, in the module the file fills. The declarations are the symbols from `base` on, numbered in
the order they are recorded, which need not be the order of the text. -/
theorem headers_nest_in_open_scope {tree : SymbolTree} (h : tree.Shaped) (path content : String) :
    ∃ T module base spans, Python.scan tree path content = .ok (T, tree.files.size) ∧
      module = ((ModulePath.ofPath path).scope (tree.addFile (FileRecord.new path content)).1).2 ∧
      module < base ∧ T.size = base + spans.length ∧
      ∀ (k : Nat) (S : Span), spans[k]? = some S →
        (T.get (base + k)).file = some tree.files.size ∧ (T.get (base + k)).span = some S ∧
        ((∃ j, OpenAt spans j k ∧ (∀ j', j < j' → ¬ OpenAt spans j' k) ∧
            (T.get (base + k)).parent = some (base + j)) ∨
          ((∀ j, ¬ OpenAt spans j k) ∧ (T.get (base + k)).parent = some module)) := by
  obtain ⟨module, t₀, st₀, hmod, hsize, hopen, hfile, hrec, henc, hrun⟩ := scan_run h path content
  have hmlt : module < st₀.tree.size :=
    (hopen.scopes (module, ⟨0, content.utf8ByteSize⟩) (by simp [henc])).1
  -- the loop starts with nothing recorded and the module alone on the stack
  have hs₀ : Stacked st₀.tree.size module content.utf8ByteSize tree.files.size st₀ :=
    ⟨hfile, by simp [hrec], by simp [hrec], by simp [hrec, henc], by simp [hrec], by simp [hrec]⟩
  obtain ⟨t, st, hheaders, hs⟩ := Stacked.headers (t₀.size + 1) t₀ st₀ hsize hopen hs₀
  obtain ⟨T, hscan, -, hTsize, hsame⟩ := hrun t st hheaders
  refine ⟨T, module, st₀.tree.size, st.recorded.map Prod.snd, hscan, hmod, hmlt,
    by rw [hTsize, hs.size, List.length_map], fun k S hS => ?_⟩
  obtain ⟨e, he, rfl⟩ : ∃ e, st.recorded[k]? = some e ∧ e.2 = S := by simpa using hS
  rw [← hs.ids k e he, (hsame e.1).file, (hsame e.1).span, (hsame e.1).parent, hs.nested k e he]
  refine ⟨(hs.located k e he).1, (hs.located k e he).2, ?_⟩
  -- the records before `k` are numbered as all are
  have hids : ∀ (j : Nat) o, (st.recorded.take k)[j]? = some o → o.1 = st₀.tree.size + j := by
    intro j o ho
    rw [List.getElem?_take] at ho
    split at ho
    · exact hs.ids j o ho
    · cases ho
  rcases head?_filter_openStack hids e.2 with ⟨j, hj, hmax, hhead⟩ | ⟨hnone, hhead⟩
  · refine .inl ⟨j, (openFor_take_iff he j).1 hj,
      fun j' hjj' hopen => hmax j' hjj' ((openFor_take_iff he j').2 hopen), ?_⟩
    rw [hhead]
    rfl
  · refine .inr ⟨fun j hopen => hnone j ((openFor_take_iff he j).2 hopen), ?_⟩
    rw [hhead]
    rfl

theorem cart_nests_in_open_scope :
    (SymbolTree.new "shop" "python").Shaped ∧
    ∃ T module base spans, Python.scan (SymbolTree.new "shop" "python") "shop/cart.py"
        "class Cart:\n  def pay(self): pass\n" = .ok (T, (SymbolTree.new "shop" "python").files.size) ∧
      module = ((ModulePath.ofPath "shop/cart.py").scope ((SymbolTree.new "shop" "python").addFile
        (FileRecord.new "shop/cart.py" "class Cart:\n  def pay(self): pass\n")).1).2 ∧
      module < base ∧ T.size = base + spans.length ∧
      ∀ (k : Nat) (S : Span), spans[k]? = some S →
        (T.get (base + k)).file = some (SymbolTree.new "shop" "python").files.size ∧
        (T.get (base + k)).span = some S ∧
        ((∃ j, OpenAt spans j k ∧ (∀ j', j < j' → ¬ OpenAt spans j' k) ∧
            (T.get (base + k)).parent = some (base + j)) ∨
          ((∀ j, ¬ OpenAt spans j k) ∧ (T.get (base + k)).parent = some module)) :=
  ⟨SymbolTree.shaped_new "shop" "python",
    headers_nest_in_open_scope (SymbolTree.shaped_new "shop" "python") _ _⟩

end Python

end Lineage
