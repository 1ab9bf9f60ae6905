import Lineage.Proofs.Hierarchy.Methods
/-!
The hierarchy of any tree is ready for the search for overrides once it is built.

Nothing here assumes that the tree is shaped: the symbols registered, the super types and
the parameter types may be whatever the tree holds. Every stage of building keeps the nodes
it hands out stored (`HierarchyBuild.Sane`): the node recorded for a symbol or an external
name lies within the table, so every link joins two stored nodes and every method is
attached to a stored owner. The hierarchy the search for overrides starts from is then
`Hierarchy.Ready`: its edges are in order, every method is listed once, by its owner, and no
override is recorded yet (`hierarchy_eq_ok`).
-/
namespace Lineage

namespace Hierarchy

/-- A hierarchy ready for the search for overrides: parent and child edges agree, every
method is listed once, in the list of its owner, and no override is recorded yet. -/
structure Ready (h : Hierarchy) : Prop where
  edges : h.Edges
  mem_methods : ∀ o m, m ∈ (h.node o).methods ↔ m < h.methods.size ∧ (h.method m).owner = o
  methods_nodup : ∀ o, (h.node o).methods.toList.Nodup
  fresh : ∀ m, (h.method m).overrides = none ∧ (h.method m).overriddenBy = []

theorem ready_empty : ({} : Hierarchy).Ready := by
  have hnode : ∀ k, ({} : Hierarchy).node k = default := fun k => node_of_size_le (Nat.zero_le k)
  refine ⟨.of_isolated fun k => ?_, fun o m => ?_, fun o => ?_, fun m => ⟨rfl, rfl⟩⟩
  · rw [hnode]
    exact ⟨rfl, rfl⟩
  · rw [hnode]
    exact ⟨fun hin => absurd hin (Array.not_mem_empty m),
      fun hin => absurd hin.1 (Nat.not_lt_zero m)⟩
  · rw [hnode]
    exact List.nodup_nil

/-- Appending a node without edges or methods keeps a hierarchy ready. -/
theorem Ready.push {h : Hierarchy} (hr : h.Ready) {x : TypeNode} (hp : x.parents = #[])
    (hc : x.children = #[]) (hm : x.methods = #[]) :
    ({ h with types := h.types.push x } : Hierarchy).Ready := by
  have hnode := node_push h x
  -- no method is owned by the index the new node takes
  have hnone : ∀ m, ¬(m < h.methods.size ∧ (h.method m).owner = h.types.size) := by
    intro m hm
    have hmem := (hr.mem_methods h.types.size m).2 hm
    rw [node_of_size_le le_rfl] at hmem
    exact Array.not_mem_empty m hmem
  refine ⟨hr.edges.push hp hc, fun o m => ?_, fun o => ?_, hr.fresh⟩
  · rw [hnode]
    split
    · rename_i ho
      subst ho
      rw [hm]
      exact ⟨fun hin => absurd hin (Array.not_mem_empty m), fun hin => absurd hin (hnone m)⟩
    · exact hr.mem_methods o m
  · rw [hnode]
    split
    · simp [hm]
    · exact hr.methods_nodup o

/-- Attaching a new method, with no override recorded, to a stored owner keeps a hierarchy
ready. -/
theorem Ready.attach {h : Hierarchy} (hr : h.Ready) {owner : Nat} (hsize : owner < h.types.size)
    {m : MethodNode} (hown : m.owner = owner)
    (hfresh : m.overrides = none ∧ m.overriddenBy = []) :
    ({ types := h.types.modify owner fun n => { n with methods := n.methods.push h.methods.size },
       methods := h.methods.push m } : Hierarchy).Ready := by
  have hnode := h.node_modify (fun n => { n with methods := n.methods.push h.methods.size })
    owner (h.methods.push m)
  refine ⟨hr.edges.congr (by simp) fun k => ?_, mem_methods_attach hr.mem_methods hsize hown,
    methods_nodup_attach hr.mem_methods hr.methods_nodup, fun i => ?_⟩
  · rw [hnode]
    split <;> exact ⟨rfl, rfl⟩
  · rw [method_push]
    split
    · exact hfresh
    · exact hr.fresh i

end Hierarchy

namespace HierarchyBuild

variable {tree : SymbolTree} {b : HierarchyBuild}

/-- What every stage of building keeps, whatever the tree: the hierarchy so far is ready,
and the nodes recorded for symbols and for external names are stored. -/
structure Sane (b : HierarchyBuild) : Prop where
  ready : b.graph.Ready
  nodeOf_lt : ∀ id k : Nat, (b.nodeOf[id]?).getD none = some k → k < b.graph.types.size
  externals_lt : ∀ e ∈ b.externals, e.2 < b.graph.types.size

theorem sane_start (tree : SymbolTree) :
    ({ nodeOf := Array.replicate tree.size none } : HierarchyBuild).Sane := by
  refine ⟨Hierarchy.ready_empty, fun id k hk => ?_, fun e he => absurd he List.not_mem_nil⟩
  simp only [Array.getElem?_replicate] at hk
  split at hk <;> cases hk

/-- Appending a node without edges or methods keeps the building sane. -/
theorem Sane.push (hs : b.Sane) {x : TypeNode} (hp : x.parents = #[]) (hc : x.children = #[])
    (hm : x.methods = #[]) : (b.push x).1.Sane :=
  ⟨hs.ready.push hp hc hm, fun id k hk => by
    rw [size_push]
    exact Nat.lt_succ_of_lt (hs.nodeOf_lt id k hk), fun e he => by
    rw [size_push]
    exact Nat.lt_succ_of_lt (hs.externals_lt e he)⟩

variable (tree) in
/-- The project node of any symbol is stored, and finding it keeps the building sane and
the nodes already stored. -/
theorem Sane.projectNode (hs : b.Sane) (id : Nat) :
    (b.projectNode tree id).1.Sane ∧
      (b.projectNode tree id).2 < (b.projectNode tree id).1.graph.types.size ∧
      b.graph.types.size ≤ (b.projectNode tree id).1.graph.types.size := by
  cases hk : (b.nodeOf[id]?).getD none with
  | some k =>
    rw [projectNode_of_some hk]
    exact ⟨hs, hs.nodeOf_lt id k hk, le_rfl⟩
  | none =>
    obtain ⟨x, heq, -, -, -, hp, hc, hm⟩ := projectNode_of_none tree hk
    rw [heq]
    have hpush := hs.push hp hc hm
    refine ⟨⟨hpush.ready, fun id' k hk' => ?_, hpush.externals_lt⟩, by simp, by simp⟩
    -- the one entry written is the new node
    dsimp only at hk'
    rw [Array.getElem?_setIfInBounds] at hk'
    split at hk'
    · split at hk'
      · cases hk'
        simp
      · exact absurd hk' (by simp)
    · exact hpush.nodeOf_lt id' k hk'

variable (tree) in
/-- The node of any type reference is stored, and finding it keeps the building sane and the
nodes already stored. -/
theorem Sane.typeNode (hs : b.Sane) (r : TypeRef) :
    (b.typeNode tree r).1.Sane ∧
      (b.typeNode tree r).2 < (b.typeNode tree r).1.graph.types.size ∧
      b.graph.types.size ≤ (b.typeNode tree r).1.graph.types.size := by
  rcases typeNode_cases tree b r with ⟨id, -, heq⟩ | ⟨-, k, hlook, heq⟩ |
    ⟨-, -, x, heq, -, -, hp, hc, hm⟩
  · rw [heq]
    exact hs.projectNode tree id
  · rw [heq]
    exact ⟨hs, hs.externals_lt _ (mem_of_lookup_eq_some hlook), le_rfl⟩
  · rw [heq]
    have hpush := hs.push hp hc hm
    refine ⟨⟨hpush.ready, hpush.nodeOf_lt, fun e he => ?_⟩, by simp, by simp⟩
    rcases List.mem_append.1 he with he | he
    · exact hpush.externals_lt e he
    · rw [List.mem_singleton] at he
      subst he
      simp

/-- Linking two stored nodes keeps the building sane. -/
theorem Sane.link (hs : b.Sane) {p c : Nat} (hp : p < b.graph.types.size)
    (hc : c < b.graph.types.size) : (b.link p c).Sane := by
  have hsame := link_sameMethods b p c
  have hmethod : ∀ m, (b.link p c).graph.method m = b.graph.method m := fun m => by
    unfold Hierarchy.method
    rw [hsame.table]
  refine ⟨⟨hs.ready.edges.link hp hc, fun o m => ?_, fun o => ?_, fun m => ?_⟩,
    fun id k hk => ?_, fun e he => ?_⟩
  · rw [hsame.node, hsame.table, hmethod]
    exact hs.ready.mem_methods o m
  · rw [hsame.node]
    exact hs.ready.methods_nodup o
  · rw [hmethod]
    exact hs.ready.fresh m
  · rw [link_nodeOf] at hk
    rw [size_link]
    exact hs.nodeOf_lt id k hk
  · rw [link_externals] at he
    rw [size_link]
    exact hs.externals_lt e he

theorem lt_of_symbol_eq_some {h : Hierarchy} {i id : Nat} (hi : (h.node i).symbol = some id) :
    i < h.types.size := by
  by_contra hn
  rw [Hierarchy.node_of_size_le (Nat.le_of_not_lt hn)] at hi
  cases hi

/-- Linking a node below the nodes of its super types keeps the building sane, and the nodes
already stored. -/
theorem Sane.linkSupers (hs : b.Sane) (i : Nat) :
    (b.linkSupers tree i).Sane ∧
      b.graph.types.size ≤ (b.linkSupers tree i).graph.types.size := by
  unfold HierarchyBuild.linkSupers
  split
  · exact ⟨hs, le_rfl⟩
  · rename_i id hsym
    -- only a stored node has a symbol
    have hi := lt_of_symbol_eq_some hsym
    split
    · exact ⟨hs, le_rfl⟩
    · refine List.foldlRecOn (motive := fun (b' : HierarchyBuild) =>
        b'.Sane ∧ b.graph.types.size ≤ b'.graph.types.size) _ _ ⟨hs, le_rfl⟩ ?_
      rintro b' ⟨hs', hle⟩ r -
      obtain ⟨hs'', hp, hle'⟩ := hs'.typeNode tree r
      generalize b'.typeNode tree r = q at hs'' hp hle' ⊢
      obtain ⟨b'', parent⟩ := q
      dsimp only at hs'' hp hle' ⊢
      refine ⟨hs''.link hp (by omega), ?_⟩
      rw [size_link]
      omega

/-- Attaching the methods of a node keeps the building sane, and the nodes already stored. -/
theorem Sane.attachMethods (hs : b.Sane) (owner : Nat) :
    (b.attachMethods tree owner).Sane ∧
      b.graph.types.size ≤ (b.attachMethods tree owner).graph.types.size := by
  unfold HierarchyBuild.attachMethods
  split
  · exact ⟨hs, le_rfl⟩
  rename_i id hsym
  have howner := lt_of_symbol_eq_some hsym
  -- the members in turn
  rw [← Array.foldl_toList]
  refine List.foldlRecOn (motive := fun (b' : HierarchyBuild) =>
    b'.Sane ∧ b.graph.types.size ≤ b'.graph.types.size) _ _ ⟨hs, le_rfl⟩ ?_
  rintro b' ⟨hs', hle⟩ c -
  dsimp only
  split
  · exact ⟨hs', hle⟩
  split
  · exact ⟨hs', hle⟩
  -- the parameters' type nodes, each found in turn, then the method itself
  generalize hq : List.foldl _ (b', []) _ = q
  have hparams : q.1.Sane ∧ b'.graph.types.size ≤ q.1.graph.types.size := by
    rw [← hq]
    refine List.foldlRecOn (motive := fun (q : HierarchyBuild × List ParamNode) =>
      q.1.Sane ∧ b'.graph.types.size ≤ q.1.graph.types.size) _ _ ⟨hs', le_rfl⟩ ?_
    rintro ⟨b₂, ps₂⟩ ⟨hs₂, hle₂⟩ p -
    dsimp only at hs₂ hle₂ ⊢
    split
    · rename_i ty _
      obtain ⟨hs₃, -, hle₃⟩ := hs₂.typeNode tree ty
      dsimp only
      exact ⟨hs₃, by omega⟩
    · exact ⟨hs₂, hle₂⟩
  obtain ⟨b₂, ps⟩ := q
  obtain ⟨hs₂, hle₂⟩ := hparams
  dsimp only at hs₂ hle₂ ⊢
  refine ⟨⟨hs₂.ready.attach (by omega) rfl ⟨rfl, rfl⟩, fun id' k hk => ?_,
    fun e he => ?_⟩, ?_⟩
  · simpa using hs₂.nodeOf_lt id' k hk
  · simpa using hs₂.externals_lt e he
  · simp only [Array.size_modify]
    omega

/-- Registering the symbols of a list keeps the building sane, when no symbol is met twice. -/
theorem Sane.register (tree : SymbolTree) :
    ∀ (ids : List Nat) {b b' : HierarchyBuild}, b.Sane →
      ids.foldlM (fun (b : HierarchyBuild) id =>
        if ((b.nodeOf[id]?).getD none).isSome then
          (.error (.duplicateType (tree.qualifiedName id)) : Except BuildError HierarchyBuild)
        else pure (b.projectNode tree id).1) b = .ok b' → b'.Sane
  | [], _, _, hs, hb => by
    cases hb
    exact hs
  | id :: ids, b, b', hs, hb => by
    rw [List.foldlM_cons] at hb
    split at hb
    · cases hb
    · exact Sane.register tree ids (hs.projectNode tree id).1 hb

end HierarchyBuild

open HierarchyBuild in
/-- A hierarchy is built only from a hierarchy ready for the search for overrides, by the
search from each root in turn. -/
theorem hierarchy_eq_ok {tree : SymbolTree} {T : Hierarchy} (hT : tree.hierarchy = .ok T) :
    ∃ h : Hierarchy, h.Ready ∧
      T = h.roots.foldl (fun h r => h.findOverrides tree (h.types.size + 1) r [] []) h := by
  unfold SymbolTree.hierarchy at hT
  simp only [bind, Except.bind] at hT
  split at hT
  · cases hT
  rename_i b hb
  cases hT
  refine ⟨_, ?_, rfl⟩
  -- registering, linking super types, then attaching methods
  have hs₁ := Sane.register tree _ (sane_start tree) hb
  have hs₂ := List.foldlRecOn (motive := fun (b' : HierarchyBuild) => b'.Sane)
    (List.range b.graph.types.size) (fun b i => b.linkSupers tree i) hs₁
    fun b' hs' i _ => (hs'.linkSupers i).1
  exact (List.foldlRecOn (motive := fun (b' : HierarchyBuild) => b'.Sane) _
    (fun b i => b.attachMethods tree i) hs₂ fun b' hs' i _ => (hs'.attachMethods i).1).ready

end Lineage
