import Lineage.Python.Scan
import Lineage.Proofs.Tree.Growth
import Lineage.Proofs.Scan.Bounds
/-!
Scanning a Python file keeps a tree shaped and never fails.

Unlike the Java scanner, the Python scanner nests every header as soon as it is read, below
the innermost open declaration around it or else the module, so the tree stays shaped
throughout. What has to be shown is that each `nest` is accepted: the new symbol's span,
a header's start up to its body's end, lies inside its parent's whenever the parent is
located in the same file. `Open` is what the header loop keeps: the open declarations
(`enclosing`) are stored, each one located in the file is located at the span the scan
keeps for it, and the module with the whole text sits at the bottom.

* `closeScopes_spec`: closing scopes keeps the bottom and leaves on top one that contains
  the new span, or the bottom alone;
* `bodyEnd_le`: a body ends inside the text;
* `Open.insert`, `Open.headers`: recording headers keeps `Open` and never fails, and
  `Open.headers_induction` carries any invariant that recording a header keeps;
* `scan_run`, `scan_run_placed`: how a scan runs, from the module located at the whole text
  to the imports;
* `scan_shaped`: a scan of a shaped tree succeeds and leaves it shaped.
-/
namespace Lineage

namespace Python

open SymbolTree

/-! ### Where bodies end -/

theorem lineEnd_go_le (bs : ByteArray) :
    ∀ {fuel j : Nat}, bs.size + 1 ≤ j + fuel → 0 < fuel → lineEnd.go bs fuel j ≤ bs.size
  | 0, _, _, hfuel => absurd hfuel (Nat.lt_irrefl 0)
  | fuel + 1, j, hle, _ => by
    unfold lineEnd.go
    split
    · exact Nat.min_le_right _ _
    · rename_i hstop
      -- the walk goes on only before the end, so fuel is left
      have hj : j < bs.size := by
        simp only [Bool.or_eq_true, decide_eq_true_eq, not_or] at hstop
        omega
      exact lineEnd_go_le bs (by omega) (by omega)

theorem lineEnd_le (bs : ByteArray) (i : Nat) : lineEnd bs i ≤ bs.size :=
  lineEnd_go_le bs (by omega) (by omega)

theorem bodyLines_le (bs : ByteArray) (indent : String) :
    ∀ {fuel pos stop : Nat}, stop ≤ bs.size → bodyLines bs indent fuel pos stop ≤ bs.size
  | 0, _, _, h => h
  | fuel + 1, pos, stop, h => by
    unfold bodyLines
    split
    · dsimp only
      split
      · exact bodyLines_le bs indent h
      · split
        · exact bodyLines_le bs indent (lineEnd_le bs _)
        · exact h
    · exact h

/-- A body ends inside the text. -/
theorem bodyEnd_le (bs : ByteArray) (headerEnd : Nat) (indent : String) :
    bodyEnd bs headerEnd indent ≤ bs.size := by
  unfold bodyEnd
  dsimp only
  split
  · exact lineEnd_le bs headerEnd
  · exact bodyLines_le bs indent (lineEnd_le bs headerEnd)

/-! ### Closing scopes -/

theorem closeScopes_cons_cons (span : Span) (e f : Nat × Span) (rest : List (Nat × Span)) :
    closeScopes span (e :: f :: rest) =
      if e.2.stop ≤ span.start || !e.2.contains span then closeScopes span (f :: rest)
      else e :: f :: rest := rfl

/-- Closing scopes keeps the bottom of the list and a part of the rest; on top it leaves a
scope that contains the span, or the bottom alone. -/
theorem closeScopes_spec (span : Span) (bottom : Nat × Span) :
    ∀ pre : List (Nat × Span), ∃ e pre', closeScopes span (pre ++ [bottom]) = e :: pre' ∧
      (∃ pre'', e :: pre' = pre'' ++ [bottom]) ∧ (∀ x ∈ e :: pre', x ∈ pre ++ [bottom]) ∧
      (e.2.contains span ∨ e = bottom)
  | [] => ⟨bottom, [], rfl, ⟨[], rfl⟩, fun _ hx => hx, .inr rfl⟩
  | x :: pre => by
    obtain ⟨f, rest, hfr⟩ : ∃ f rest, pre ++ [bottom] = f :: rest :=
      List.exists_cons_of_ne_nil (by simp)
    rw [List.cons_append, hfr, closeScopes_cons_cons]
    split
    · -- the top scope is closed: what the rest leaves
      obtain ⟨e, pre', heq, ⟨pre'', hpre''⟩, hsub, hcont⟩ := closeScopes_spec span bottom pre
      rw [hfr] at heq hsub
      exact ⟨e, pre', heq, ⟨pre'', hpre''⟩, fun y hy => .tail _ (hsub y hy), hcont⟩
    · rename_i hopen
      refine ⟨x, f :: rest, rfl, ⟨x :: pre, by rw [List.cons_append, hfr]⟩, fun _ hy => hy, .inl ?_⟩
      simp only [Bool.or_eq_true, decide_eq_true_eq, Bool.not_eq_true', not_or,
        Nat.not_le, Bool.not_eq_false] at hopen
      exact hopen.2

/-! ### Recording a header -/

/-- Recording a header stores one declaration of the header's name, without parent or
children, located in the file at the header's span and of no package kind, and nests it
below the top scope left open (the root when none is). -/
theorem insert_cases (st : ModuleScan) (h : Header) (span : Span) :
    ∃ s, insert st h span =
        ((st.tree.alloc s).1.nest (((closeScopes span st.enclosing).head?.map (·.1)).getD 0)
            st.tree.size >>= fun tree =>
          pure { st with
            tree
            enclosing := (st.tree.size, span) :: closeScopes span st.enclosing
            recorded := st.recorded ++ [(st.tree.size, span)] }) ∧
      s.parent = none ∧ s.children = #[] ∧ s.file = some st.file ∧ s.span = some span ∧
      SymbolClass.package.accepts s.kind = false ∧ s.isDeclaration = true ∧ s.name = h.name := by
  rcases h with ⟨name, start, indent, decorators, form⟩
  simp only [insert, alloc_snd]
  cases form with
  | classHeader bs =>
    simp only
    -- an abstract base adds a modifier after the kind is set
    split_ifs with habs
    · simp only [habs, ↓reduceIte]
      rw [alloc_modify, SymbolTree.addModifier, alloc_modify]
      exact ⟨_, rfl, rfl, rfl, rfl, rfl, rfl, rfl, rfl⟩
    · simp only [habs, Bool.false_eq_true, ↓reduceIte]
      rw [alloc_modify]
      exact ⟨_, rfl, rfl, rfl, rfl, rfl, rfl, rfl, rfl⟩
  | function params rt =>
    simp only
    rw [alloc_modify]
    exact ⟨_, rfl, rfl, rfl, rfl, rfl, rfl, rfl, rfl⟩

/-- What the header loop keeps, for a text of `n` bytes filling `module`: the tree is
shaped, every open declaration is stored and, when located in the file, located at the
span the scan keeps for it, and the module with the whole text is the bottom scope. -/
structure Open (n module : Nat) (st : ModuleScan) : Prop where
  shaped : st.tree.Shaped
  scopes : ∀ e ∈ st.enclosing, e.1 < st.tree.size ∧
    ((st.tree.get e.1).file = some st.file → (st.tree.get e.1).span = some e.2)
  bottom : ∃ pre, st.enclosing = pre ++ [(module, ⟨0, n⟩)]
  file_lt : st.file < st.tree.files.size

/-- Recording a header whose body ends inside the text keeps the loop's invariant. -/
theorem Open.insert {n module : Nat} {st : ModuleScan} (hst : Open n module st) (h : Header)
    (span : Span) (hspan : span.stop ≤ n) :
    ∃ st', insert st h span = .ok st' ∧ Open n module st' := by
  obtain ⟨s, heq, hsp, hsc, hsf, hss, hspk, -⟩ := insert_cases st h span
  obtain ⟨pre, hpre⟩ := hst.bottom
  obtain ⟨e, pre', hclose, ⟨pre'', hpre''⟩, hsub, hcont⟩ :=
    closeScopes_spec span (module, ⟨0, n⟩) pre
  rw [← hpre] at hclose hsub
  rw [heq, hclose]
  simp only [List.head?_cons, Option.map_some, Option.getD_some]
  -- the top scope left open is stored, and contains the header when located in the file
  have he := hst.scopes e (hsub e List.mem_cons_self)
  have hcontains : e.2.contains span := by
    rcases hcont with hcont | rfl
    · exact hcont
    · simpa [Span.contains] using hspan
  have hinside : ∀ f cs ps, s.file = some f → (st.tree.get e.1).file = some f →
      s.span = some cs → (st.tree.get e.1).span = some ps → ps.contains cs := by
    intro f cs ps hf hef hcs hps
    rw [hsf] at hf
    cases hf
    rw [he.2 hef] at hps
    rw [hss] at hcs
    cases hps
    cases hcs
    exact hcontains
  have hold : ∀ i < st.tree.size, (st.tree.alloc s).1.get i = st.tree.get i := fun i hi => by
    rw [get_alloc, if_neg (Nat.ne_of_lt hi)]
  have hnew : (st.tree.alloc s).1.get st.tree.size = s := by rw [get_alloc, if_pos rfl]
  have hnest : (st.tree.alloc s).1.Nestable e.1 st.tree.size := by
    refine ⟨Nat.ne_of_lt he.1, by rw [hnew]; exact hsp, fun f ps cs hpf hcf hps hcs => ?_⟩
    rw [hold e.1 he.1] at hpf hps
    rw [hnew] at hcf hcs
    exact hinside f cs ps hcf hpf hcs hps
  have hp : e.1 < (st.tree.alloc s).1.size := by simpa using Nat.lt_succ_of_lt he.1
  have hc : st.tree.size < (st.tree.alloc s).1.size := by simp
  rw [nest_eq_ok hnest]
  refine ⟨_, rfl, hst.shaped.attach he.1 hsp hsc ?_ ?_ hinside, ?_, ⟨(st.tree.size, span) :: pre'', ?_⟩,
    by simpa using hst.file_lt⟩
  · intro f hf
    rw [hsf] at hf
    cases hf
    exact hst.file_lt
  · intro hacc
    rw [hspk] at hacc
    cases hacc
  · -- the header opens above the scopes left open
    intro x hx
    rw [size_link, size_alloc]
    simp only [get_link hp hc]
    rcases List.mem_cons.1 hx with rfl | hx
    · refine ⟨Nat.lt_succ_self _, fun _ => ?_⟩
      rw [hnew]
      exact hss
    · have hx' := hst.scopes x (hsub x hx)
      rw [hold x.1 hx'.1]
      exact ⟨Nat.lt_succ_of_lt hx'.1, hx'.2⟩
  · simp only [List.cons_append, hpre'']

/-- What recording a header keeps along with `Open`, the header loop keeps, and the loop
never fails: each round records a header whose body ends inside the text, and masks it
without changing the text's size. -/
theorem Open.headers_induction {n module : Nat} (P : ModuleScan → Prop)
    (hstep : ∀ st st' h span, Open n module st → P st → Python.insert st h span = .ok st' → P st') :
    ∀ (fuel : Nat) (t : Overlay) (st : ModuleScan), t.size = n → Open n module st → P st →
      ∃ t' st', Python.headers fuel t st = .ok (t', st') ∧ Open n module st' ∧ P st'
  | 0, t, st, _, h, hp => ⟨t, st, rfl, h, hp⟩
  | fuel + 1, t, st, ht, h, hp => by
    unfold Python.headers
    split
    · exact ⟨t, st, rfl, h, hp⟩
    · rename_i m _
      have hstop : bodyEnd t.view m.stop (Header.ofMatch t m).indent ≤ n := by
        have hle := bodyEnd_le t.view m.stop (Header.ofMatch t m).indent
        rw [t.size_view] at hle
        exact ht ▸ hle
      obtain ⟨st₁, hins, h₁⟩ :=
        h.insert (Header.ofMatch t m)
          ⟨(Header.ofMatch t m).start, bodyEnd t.view m.stop (Header.ofMatch t m).indent⟩ hstop
      obtain ⟨t', st', hrun, h', hp'⟩ := Open.headers_induction P hstep fuel
        (t.mask (Header.ofMatch t m).start m.stop) st₁ (by rw [Overlay.size_mask, ht]) h₁
        (hstep st st₁ _ _ h hp hins)
      exact ⟨t', st', by simpa only [hins, bind, Except.bind] using hrun, h', hp'⟩

/-- The header loop keeps the invariant and never fails. -/
theorem Open.headers {n module : Nat} (fuel : Nat) (t : Overlay) (st : ModuleScan)
    (ht : t.size = n) (h : Open n module st) :
    ∃ t' st', Python.headers fuel t st = .ok (t', st') ∧ Open n module st' := by
  obtain ⟨t', st', hrun, h', -⟩ :=
    Open.headers_induction (fun _ => True) (fun _ _ _ _ _ _ _ => trivial) fuel t st ht h trivial
  exact ⟨t', st', hrun, h'⟩

/-! ### A whole scan -/

/-- The scope a file fills is found or created in a shaped tree. -/
theorem scope_found {t : SymbolTree} (h : t.Shaped) (loc : ModulePath) :
    ScopeFound t (loc.scope t).1 (loc.scope t).2 := by
  have hpath := h.packagePath h.nonempty loc.package "package"
  unfold ModulePath.scope
  cases loc.module with
  | none => exact hpath
  | some m => exact hpath.trans (hpath.shaped.packageChild hpath.lt m "module")

/-- A symbol located in a file no symbol lay in before is located where `setLocation`
put it. -/
theorem setLocation_located {t : SymbolTree} {id f : Nat} (sp : Span) (hfresh : t.FileFresh f)
    (hf : ((t.setLocation id f sp).get id).file = some f) :
    ((t.setLocation id f sp).get id).span = some sp := by
  unfold SymbolTree.setLocation at hf ⊢
  by_cases hid : id < t.size
  · rw [get_modify _ hid, if_pos rfl] at hf ⊢
    split at hf
    · rw [if_pos (by assumption)]
    · exact absurd hf (hfresh id)
  · rw [get_modify_of_size_le _ (Nat.le_of_not_lt hid)] at hf
    exact absurd hf (hfresh id)

/-- Recording imports keeps a tree shaped, whatever the scopes and rules. -/
theorem foldl_shaped {α : Type} {t : SymbolTree} (h : t.Shaped) (xs : List α)
    (step : SymbolTree → α → SymbolTree) (hstep : ∀ t a, t.Shaped → (step t a).Shaped) :
    (xs.foldl step t).Shaped :=
  List.foldlRecOn (motive := fun t => t.Shaped) xs step h fun t ht a _ => hstep t a ht

/-- Recording imports changes no symbol's shape and no tree's size. -/
theorem foldl_sameShape {α : Type} (xs : List α) (step : SymbolTree → α → SymbolTree)
    (hstep : ∀ t a, (step t a).size = t.size ∧ ∀ i, ((step t a).get i).SameShape (t.get i)) :
    ∀ t : SymbolTree, (xs.foldl step t).size = t.size ∧
      ∀ i, ((xs.foldl step t).get i).SameShape (t.get i) := by
  induction xs with
  | nil => exact fun t => ⟨rfl, fun i => Symbol.SameShape.refl _⟩
  | cons a xs ih =>
    intro t
    obtain ⟨hsize, hsame⟩ := ih (step t a)
    exact ⟨hsize.trans (hstep t a).1, fun i => (hsame i).trans ((hstep t a).2 i)⟩

/-- How a scan runs: the header loop starts with nothing recorded and, as its only open
scope, the module the file fills, located at the whole text; whatever the loop ends with,
the scan succeeds with its tree, imports added, which keeps its shape and every symbol. -/
theorem scan_run_placed {tree : SymbolTree} (h : tree.Shaped) (path content : String) :
    ∃ (module : Nat) (t₀ : Overlay) (st₀ : ModuleScan),
      module = ((ModulePath.ofPath path).scope (tree.addFile (FileRecord.new path content)).1).2 ∧
      t₀ = (((Overlay.ofString content).maskAll literalProgram).1.maskAllWith
        continuationProgram ' ').1 ∧
      t₀.size = content.utf8ByteSize ∧ Open content.utf8ByteSize module st₀ ∧
      st₀.file = tree.files.size ∧ st₀.recorded = [] ∧
      st₀.enclosing = [(module, ⟨0, content.utf8ByteSize⟩)] ∧
      st₀.tree = ((ModulePath.ofPath path).scope (tree.addFile (FileRecord.new path content)).1).1.setLocation
        module tree.files.size ⟨0, content.utf8ByteSize⟩ ∧
      ∀ t st, headers (t₀.size + 1) t₀ st₀ = .ok (t, st) →
        ∃ T, Python.scan tree path content = .ok (T, tree.files.size) ∧
          (st.tree.Shaped → T.Shaped) ∧ T.size = st.tree.size ∧
          (∀ i, (T.get i).SameShape (st.tree.get i)) ∧ st.tree.Keeps T := by
  unfold Python.scan
  extract_lets t₀ t₁ loc whole
  have hsize : t₁.size = content.utf8ByteSize := by
    simp only [t₁, t₀, Overlay.size_maskAllWith, Overlay.size_maskAll]
    simp [Overlay.size, Overlay.ofString]
  have hview : t₁ = (((Overlay.ofString content).maskAll literalProgram).1.maskAllWith
      continuationProgram ' ').1 := rfl
  clear_value t₀ t₁
  rw [show loc = ModulePath.ofPath path from rfl,
    show tree.addFile (FileRecord.new path content) =
      ((tree.addFile (FileRecord.new path content)).1, tree.files.size) from rfl]
  dsimp only
  -- the file is new: no symbol lies in it yet
  have h₁ := h.addFile (FileRecord.new path content)
  have hfresh : (tree.addFile (FileRecord.new path content)).1.FileFresh tree.files.size :=
    fun i => by
      rw [get_addFile]
      exact h.fileFresh i
  have hlt : tree.files.size < (tree.addFile (FileRecord.new path content)).1.files.size := by
    simp
  -- the module the file fills, located at the whole text
  have hfound := scope_found h₁ (ModulePath.ofPath path)
  generalize (ModulePath.ofPath path).scope (tree.addFile (FileRecord.new path content)).1 = P
    at hfound ⊢
  obtain ⟨T₂, module⟩ := P
  dsimp only at hfound ⊢
  have hfresh₂ := hfound.fresh _ hfresh
  have hlt₂ : tree.files.size < T₂.files.size := by rw [hfound.files]; exact hlt
  refine ⟨module, t₁, ⟨T₂.setLocation module tree.files.size whole, tree.files.size,
    [(module, whole)], []⟩, rfl, hview, hsize, ?_, rfl, rfl, rfl, rfl, ?_⟩
  · refine ⟨hfound.shaped.setLocation whole hfresh₂ hlt₂, ?_, ⟨[], rfl⟩, hlt₂⟩
    intro e he
    rw [List.mem_singleton] at he
    subst he
    refine ⟨by simpa [SymbolTree.setLocation] using hfound.lt, ?_⟩
    exact setLocation_located whole hfresh₂
  · -- the imports change no shape
    intro t st hrun
    rw [hrun]
    refine ⟨_, rfl, fun hst => foldl_shaped hst _ _ fun t m ht => foldl_shaped ht _ _ ?_,
      (foldl_sameShape _ _ (fun T m => foldl_sameShape _ _ (fun T r => ?_) T) st.tree).1,
      (foldl_sameShape _ _ (fun T m => foldl_sameShape _ _ (fun T r => ?_) T) st.tree).2,
      keeps_foldl _ _ (fun T m => keeps_foldl _ _ (fun T r => keeps_addImport T _ r) T) st.tree⟩
    · intro t r ht
      exact ht.addImport _ r
    all_goals exact ⟨size_addImport _ _ _, addImport_sameShape _ _ _⟩

/-- How a scan runs: the header loop starts with nothing recorded and, as its only open
scope, the module the file fills, located at the whole text; whatever the loop ends with,
the scan succeeds with its tree, imports added, which keeps its shape. -/
theorem scan_run {tree : SymbolTree} (h : tree.Shaped) (path content : String) :
    ∃ (module : Nat) (t₀ : Overlay) (st₀ : ModuleScan),
      module = ((ModulePath.ofPath path).scope (tree.addFile (FileRecord.new path content)).1).2 ∧
      t₀.size = content.utf8ByteSize ∧ Open content.utf8ByteSize module st₀ ∧
      st₀.file = tree.files.size ∧ st₀.recorded = [] ∧
      st₀.enclosing = [(module, ⟨0, content.utf8ByteSize⟩)] ∧
      ∀ t st, headers (t₀.size + 1) t₀ st₀ = .ok (t, st) →
        ∃ T, Python.scan tree path content = .ok (T, tree.files.size) ∧
          (st.tree.Shaped → T.Shaped) ∧ T.size = st.tree.size ∧
          ∀ i, (T.get i).SameShape (st.tree.get i) := by
  obtain ⟨module, t₀, st₀, hmod, -, hsize, hopen, hfile, hrec, henc, -, hrun⟩ :=
    scan_run_placed h path content
  refine ⟨module, t₀, st₀, hmod, hsize, hopen, hfile, hrec, henc, fun t st hh => ?_⟩
  obtain ⟨T, hscan, hshaped, hTsize, hsame, -⟩ := hrun t st hh
  exact ⟨T, hscan, hshaped, hTsize, hsame⟩

theorem scan_shaped {tree : SymbolTree} (h : tree.Shaped) (path content : String) :
    ∃ r, Python.scan tree path content = .ok r ∧ r.1.Shaped := by
  obtain ⟨module, t₀, st₀, -, hsize, hopen, -, -, -, hrun⟩ := scan_run h path content
  obtain ⟨t, st, hheaders, hopen'⟩ := Open.headers (t₀.size + 1) t₀ st₀ hsize hopen
  obtain ⟨T, hscan, hshaped, -⟩ := hrun t st hheaders
  exact ⟨_, hscan, hshaped hopen'.shaped⟩

end Python

end Lineage
