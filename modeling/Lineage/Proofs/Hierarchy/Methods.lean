import Lineage.Proofs.Hierarchy.Nodes
/-!
Building a hierarchy: its methods, and the hierarchy as a whole.

Methods are attached node by node, in the order of the nodes. For a project node, each child
of its symbol that is a method other than a constructor (`Symbol.isPlainMethod`) becomes a
method node, appended to the table of methods and to its owner's list, with a parameter node
for each non-implicit parameter (`Hierarchy.MethodFor`). The invariant `Attached` says what
is attached once the first `done` nodes are finished and some members of the next one are
seen. Finding a parameter's type node may append external nodes; that keeps `Grown` and
every method.

The search for overrides only records what overrides what (`findOverrides_sameCore`), so the
result keeps everything the building established:

* `Hierarchy.WellFormed`: the edges are in order; the project nodes come first, in the
  order of the walk; the later nodes are external, with no symbol, parents or methods; no
  symbol or external name has two nodes; every method is listed once, by its owner, in the
  order of the owner's children, and stands for its method symbol;
* `hierarchy_wellFormed`: the hierarchy of a shaped tree is built and well formed.
-/
namespace Lineage

open SymbolTree

/-- Whether a symbol becomes a method node: a method other than a constructor. -/
def Symbol.isPlainMethod (s : Symbol) : Bool :=
  match s.methodInfo? with
  | some info => !info.isConstructor
  | none => false

/-- What a method node is apart from the overrides found for it. -/
def MethodNode.core (m : MethodNode) : String × Nat × Nat × List ParamNode :=
  (m.name, m.symbol, m.owner, m.params)

namespace Hierarchy

theorem node_modify (h : Hierarchy) (f : TypeNode → TypeNode) (i : Nat)
    (methods : Array MethodNode) (k : Nat) :
    ({ types := h.types.modify i f, methods } : Hierarchy).node k =
      if i = k ∧ k < h.types.size then f (h.node k) else h.node k :=
  getD_modify

theorem method_push (h : Hierarchy) (types : Array TypeNode) (m : MethodNode) (i : Nat) :
    ({ types, methods := h.methods.push m } : Hierarchy).method i =
      if i = h.methods.size then m else h.method i := by
  unfold method
  rw [Array.getElem?_push]
  split <;> rfl

section Attach

variable {h : Hierarchy} {owner : Nat} {m : MethodNode}

/-- Attaching a method as the next entry of the table, listed last by a stored owner: every
node lists exactly the methods it owns. -/
theorem mem_methods_attach
    (hmem : ∀ o i, i ∈ (h.node o).methods ↔ i < h.methods.size ∧ (h.method i).owner = o)
    (hsize : owner < h.types.size) (hown : m.owner = owner) (o i : Nat) :
    i ∈ (({ types := h.types.modify owner fun n =>
                { n with methods := n.methods.push h.methods.size },
              methods := h.methods.push m } : Hierarchy).node o).methods ↔
      i < (h.methods.push m).size ∧
        (({ types := h.types.modify owner fun n =>
                { n with methods := n.methods.push h.methods.size },
              methods := h.methods.push m } : Hierarchy).method i).owner = o := by
  rw [node_modify, method_push, Array.size_push]
  by_cases ho : owner = o
  · subst ho
    rw [if_pos ⟨rfl, hsize⟩]
    show i ∈ (h.node owner).methods.push h.methods.size ↔ _
    rw [Array.mem_push, hmem]
    by_cases hi : i = h.methods.size
    · simp [hi, hown]
    · simp only [hi, if_false, or_false]
      exact and_congr_left' ⟨fun h => by omega, fun h => by omega⟩
  · rw [if_neg (fun h => ho h.1), hmem]
    by_cases hi : i = h.methods.size
    · simp [hi, hown, ho]
    · simp only [hi, if_false]
      exact and_congr_left' ⟨fun h => by omega, fun h => by omega⟩

/-- The new entry is listed once, being past every method listed before. -/
theorem methods_nodup_attach
    (hmem : ∀ o i, i ∈ (h.node o).methods ↔ i < h.methods.size ∧ (h.method i).owner = o)
    (hnodup : ∀ o, (h.node o).methods.toList.Nodup) (o : Nat) :
    (({ types := h.types.modify owner fun n =>
            { n with methods := n.methods.push h.methods.size },
          methods := h.methods.push m } : Hierarchy).node o).methods.toList.Nodup := by
  rw [node_modify]
  split
  · rename_i ho
    obtain ⟨rfl, -⟩ := ho
    exact nodup_toList_push (hnodup owner) fun hK =>
      absurd ((hmem owner _).1 hK).1 (lt_irrefl _)
  · exact hnodup o

end Attach

/-- A parameter node stands for a declared parameter: it has the parameter's name, and a
type node exactly when the parameter has a type, the node that type stands for. -/
def ParamFor (tree : SymbolTree) (h : Hierarchy) (p : Param) (q : ParamNode) : Prop :=
  q.name = p.name ∧
    match p.type, q.type with
    | some ty, some k => h.NodeFor tree ty k
    | none, none => True
    | _, _ => False

/-- A method node stands for the method symbol it records: it has its name, and a parameter
node for each non-implicit parameter, in order. -/
def MethodFor (tree : SymbolTree) (h : Hierarchy) (m : MethodNode) : Prop :=
  m.name = (tree.get m.symbol).name ∧
    ∃ info, (tree.get m.symbol).methodInfo? = some info ∧ info.isConstructor = false ∧
      List.Forall₂ (h.ParamFor tree) (info.params.filter (!·.implicit)) m.params

variable {tree : SymbolTree} {h h' : Hierarchy}

theorem ParamFor.extend {p : Param} {q : ParamNode} (hp : h.ParamFor tree p q)
    (hext : h.Extends h') : h'.ParamFor tree p q := by
  obtain ⟨hname, hp⟩ := hp
  refine ⟨hname, ?_⟩
  cases hpt : p.type with
  | none =>
    cases hqt : q.type <;> simp only [hpt, hqt] at hp ⊢
  | some ty =>
    cases hqt : q.type with
    | none => simp only [hpt, hqt] at hp
    | some k =>
      simp only [hpt, hqt] at hp ⊢
      exact hp.extend hext

theorem MethodFor.extend {m : MethodNode} (hm : h.MethodFor tree m) (hext : h.Extends h') :
    h'.MethodFor tree m := by
  obtain ⟨hname, info, hinfo, hctor, hparams⟩ := hm
  exact ⟨hname, info, hinfo, hctor, hparams.imp fun _ _ hp => hp.extend hext⟩

/-- A method node stands for its symbol through its core alone. -/
theorem MethodFor.of_core {m m' : MethodNode} (hm : h.MethodFor tree m) (hcore : m'.core = m.core)
    (hext : h.Extends h') : h'.MethodFor tree m' := by
  simp only [MethodNode.core, Prod.mk.injEq] at hcore
  obtain ⟨hname, hsym, -, hparams⟩ := hcore
  obtain ⟨hname', info, hinfo, hctor, hps⟩ := hm.extend hext
  refine ⟨?_, info, ?_, hctor, ?_⟩
  · rw [hname, hsym]
    exact hname'
  · rw [hsym]
    exact hinfo
  · rw [hparams]
    exact hps

end Hierarchy

/-! ### Attaching methods -/

variable {tree : SymbolTree}

variable (tree) in
/-- What is attached once the nodes before `done` are finished and, of the node `done`, the
members `pre` are seen: every method is listed once, by its owner, a project node; a
finished node lists the plain methods of its symbol in order, the node `done` those among
`pre`, and later nodes none; and every method stands for its symbol. -/
structure Attached (g : Hierarchy) (done : Nat) (pre : List Nat) : Prop where
  owner_lt : ∀ m < g.methods.size, (g.method m).owner < (tree.walk .type).length
  mem_methods : ∀ o m, m ∈ (g.node o).methods ↔ m < g.methods.size ∧ (g.method m).owner = o
  methods_nodup : ∀ o, (g.node o).methods.toList.Nodup
  finished : ∀ o (ho : o < (tree.walk .type).length), o < done →
    (g.node o).methods.toList.map (fun m => (g.method m).symbol) =
      (tree.get (tree.walk .type)[o]).children.toList.filter fun c => (tree.get c).isPlainMethod
  current : done < (tree.walk .type).length →
    (g.node done).methods.toList.map (fun m => (g.method m).symbol) =
      pre.filter fun c => (tree.get c).isPlainMethod
  pending : ∀ o, done < o → (g.node o).methods = #[]
  method_for : ∀ m < g.methods.size, g.MethodFor tree (g.method m)

namespace Attached

variable {g g' : Hierarchy} {done : Nat} {pre : List Nat}

/-- Nothing is attached to a hierarchy without methods. -/
theorem start (hnode : ∀ k, (g.node k).methods = #[]) (hm : g.methods = #[]) :
    Attached tree g 0 [] := by
  refine ⟨fun m hm' => ?_, fun o m => ?_, fun o => ?_, fun o _ h => absurd h (Nat.not_lt_zero o),
    fun _ => ?_, fun o _ => hnode o, fun m hm' => ?_⟩
  · rw [hm] at hm'
    exact absurd hm' (Nat.not_lt_zero m)
  · rw [hnode, hm]
    simp
  · simp [hnode]
  · simp [hnode]
  · rw [hm] at hm'
    exact absurd hm' (Nat.not_lt_zero m)

/-- Appending nodes and keeping the methods keeps what is attached. -/
theorem congr (ha : Attached tree g done pre) (hext : g.Extends g') (hsame : g.SameMethods g') :
    Attached tree g' done pre := by
  have hmethod : ∀ m, g'.method m = g.method m := fun m => by
    unfold Hierarchy.method
    rw [hsame.table]
  refine ⟨fun m hm => ?_, fun o m => ?_, fun o => ?_, fun o ho hd => ?_, fun hd => ?_,
    fun o hd => ?_, fun m hm => ?_⟩
  · rw [hsame.table] at hm
    rw [hmethod]
    exact ha.owner_lt m hm
  · rw [hsame.node, hsame.table, hmethod]
    exact ha.mem_methods o m
  · rw [hsame.node]
    exact ha.methods_nodup o
  · simp only [hsame.node, hmethod]
    exact ha.finished o ho hd
  · simp only [hsame.node, hmethod]
    exact ha.current hd
  · rw [hsame.node]
    exact ha.pending o hd
  · rw [hsame.table] at hm
    rw [hmethod]
    exact (ha.method_for m hm).extend hext

/-- A member that is no plain method is passed over. -/
theorem skip (ha : Attached tree g done pre) {c : Nat}
    (hc : (tree.get c).isPlainMethod = false) : Attached tree g done (pre ++ [c]) := by
  refine { ha with current := fun hd => ?_ }
  rw [ha.current hd, List.filter_append, List.filter_singleton, hc, cond_false, List.append_nil]

/-- Past the project nodes nothing is pending, whatever members are seen. -/
theorem of_walk_le (ha : Attached tree g done pre) (hd : (tree.walk .type).length ≤ done)
    (pre' : List Nat) : Attached tree g done pre' :=
  { ha with current := fun hlt => absurd hlt (Nat.not_lt_of_le hd) }

/-- Once every member of the node `done` is seen, the node is finished. -/
theorem next (ha : Attached tree g done
      (tree.get ((tree.walk .type)[done]?.getD 0)).children.toList) :
    Attached tree g (done + 1) [] := by
  refine
    { ha with
      finished := fun o ho hlt => ?_
      current := fun hd => ?_
      pending := fun o hlt => ha.pending o (by omega) }
  · rcases Nat.lt_succ_iff_lt_or_eq.1 hlt with hlt | rfl
    · exact ha.finished o ho hlt
    · rw [ha.current ho, List.getElem?_eq_getElem ho, Option.getD_some]
  · rw [ha.pending (done + 1) (Nat.lt_succ_self done)]
    rfl

/-- Attaching a method for the member `c` of the node `owner` lists it there, last. -/
theorem attach {owner : Nat} (ha : Attached tree g owner pre)
    (howner : owner < (tree.walk .type).length) (hsize : owner < g.types.size) {c : Nat}
    (hc : (tree.get c).isPlainMethod = true) {m : MethodNode} (hsym : m.symbol = c)
    (hown : m.owner = owner) (hfor : g.MethodFor tree m) :
    Attached tree
      { types := g.types.modify owner fun n => { n with methods := n.methods.push g.methods.size },
        methods := g.methods.push m } owner (pre ++ [c]) := by
  have hnode := g.node_modify (fun n => { n with methods := n.methods.push g.methods.size }) owner
    (g.methods.push m)
  have hmethod := g.method_push
    (g.types.modify owner fun n => { n with methods := n.methods.push g.methods.size }) m
  have hext : g.Extends
      { types := g.types.modify owner fun n => { n with methods := n.methods.push g.methods.size },
        methods := g.methods.push m } := by
    refine ⟨by simp, fun k _ => ?_, fun k _ => ?_⟩ <;> rw [hnode] <;> split <;> rfl
  -- every method listed so far comes before the new one
  have hlt : ∀ o i, i ∈ (g.node o).methods → i < g.methods.size :=
    fun o i hi => ((ha.mem_methods o i).1 hi).1
  refine ⟨fun i hi => ?_, fun o i => ?_, fun o => ?_, fun o ho hd => ?_, fun hd => ?_,
    fun o hd => ?_, fun i hi => ?_⟩
  · rw [Array.size_push] at hi
    rw [hmethod]
    split
    · rw [hown]
      exact howner
    · exact ha.owner_lt i (by omega)
  · exact Hierarchy.mem_methods_attach ha.mem_methods hsize hown o i
  · exact Hierarchy.methods_nodup_attach ha.mem_methods ha.methods_nodup o
  · rw [hnode, if_neg (fun h => by omega)]
    rw [List.map_congr_left fun i hi => by
      rw [hmethod, if_neg (Nat.ne_of_lt (hlt o i (Array.mem_toList_iff.1 hi)))]]
    exact ha.finished o ho hd
  · rw [hnode, if_pos ⟨rfl, hsize⟩]
    show ((g.node owner).methods.push g.methods.size).toList.map _ = _
    rw [Array.toList_push, List.map_append, List.map_congr_left fun i hi => by
      rw [hmethod, if_neg (Nat.ne_of_lt (hlt owner i (Array.mem_toList_iff.1 hi)))],
      ha.current hd, List.filter_append, List.filter_singleton, hc, List.map_singleton, hmethod,
      if_pos rfl, hsym]
    rfl
  · rw [hnode, if_neg (fun h => by omega)]
    exact ha.pending o hd
  · rw [Array.size_push] at hi
    rw [hmethod]
    split
    · exact hfor.extend hext
    · exact (ha.method_for i (by omega)).extend hext

end Attached

/-- Edges read only the nodes' parents and children. -/
theorem Hierarchy.Edges.congr {h h' : Hierarchy} (he : h.Edges)
    (hsize : h'.types.size = h.types.size)
    (hnode : ∀ k, (h'.node k).parents = (h.node k).parents ∧
      (h'.node k).children = (h.node k).children) : h'.Edges := by
  refine ⟨fun a c => ?_, fun a c hac => ?_, fun a => ?_, fun a => ?_, fun a => ?_⟩
  · rw [(hnode a).1, (hnode c).2]
    exact he.parent_iff_child a c
  · rw [(hnode a).1] at hac
    rw [hsize]
    exact he.lt_of_parent a c hac
  · rw [(hnode a).1]
    exact he.parents_nodup a
  · rw [(hnode a).2]
    exact he.children_nodup a
  · rw [(hnode a).1]
    exact he.not_mem_parents a

namespace HierarchyBuild

variable {b : HierarchyBuild}

/-- Attaching a method changes no node's symbol, name, file or edges. -/
theorem Grown.attach (hg : b.Grown tree) (owner k : Nat) (m : MethodNode) :
    ({ b with graph :=
        { types := b.graph.types.modify owner fun n => { n with methods := n.methods.push k },
          methods := b.graph.methods.push m } } : HierarchyBuild).Grown tree := by
  have hnode := b.graph.node_modify (fun n => { n with methods := n.methods.push k }) owner
    (b.graph.methods.push m)
  -- a node gets at most a method
  have hfields : ∀ j (x : TypeNode), (x = if owner = j ∧ j < b.graph.types.size then
      { b.graph.node j with methods := (b.graph.node j).methods.push k } else b.graph.node j) →
      x.symbol = (b.graph.node j).symbol ∧ x.name = (b.graph.node j).name ∧
        x.file = (b.graph.node j).file ∧ x.parents = (b.graph.node j).parents ∧
        x.children = (b.graph.node j).children := by
    intro j x hx
    subst hx
    split <;> exact ⟨rfl, rfl, rfl, rfl, rfl⟩
  refine ⟨?_, fun j hj => ?_, hg.nodeOf_walk, fun j hnj hj => ?_, fun e he => ?_,
    hg.externals_nodup, ?_⟩
  · simpa using hg.walk_le
  · obtain ⟨h1, h2, h3⟩ := hg.project j hj
    obtain ⟨e1, e2, e3, -, -⟩ := hfields j _ (hnode j)
    exact ⟨e1.trans h1, e2.trans h2, e3.trans h3⟩
  · simp only [Array.size_modify] at hj
    obtain ⟨h1, h2, h3⟩ := hg.external j hnj hj
    obtain ⟨e1, e2, -, e4, -⟩ := hfields j _ (hnode j)
    exact ⟨e1.trans h1, e4.trans h2, e2 ▸ h3⟩
  · obtain ⟨h1, h2, h3⟩ := hg.externals e he
    exact ⟨h1, by simpa using h2, ((hfields e.2 _ (hnode e.2)).2.1).trans h3⟩
  · exact hg.edges.congr (by simp) fun j =>
      ⟨(hfields j _ (hnode j)).2.2.2.1, (hfields j _ (hnode j)).2.2.2.2⟩

/-- Once the nodes of its parameters' types are found, the method of a plain member is
attached to its owner. -/
theorem attachMember {owner : Nat} {pre : List Nat} (ha : Attached tree b.graph owner pre)
    (howner : owner < (tree.walk .type).length) {c : Nat} {info : MethodInfo}
    (hinfo : (tree.get c).methodInfo? = some info) (hctor : info.isConstructor = false)
    (q : HierarchyBuild × List ParamNode)
    (hq : q.1.Grown tree ∧ b.graph.Extends q.1.graph ∧ b.graph.SameMethods q.1.graph ∧
      List.Forall₂ (q.1.graph.ParamFor tree) (info.params.filter (!·.implicit)) q.2) :
    ({ q.1 with graph :=
        { types := q.1.graph.types.modify owner fun n =>
            { n with methods := n.methods.push q.1.graph.methods.size },
          methods := q.1.graph.methods.push
            { name := (tree.get c).name, symbol := c, owner, params := q.2 } } } :
        HierarchyBuild).Grown tree ∧
    Attached tree
      { types := q.1.graph.types.modify owner fun n =>
          { n with methods := n.methods.push q.1.graph.methods.size },
        methods := q.1.graph.methods.push
          { name := (tree.get c).name, symbol := c, owner, params := q.2 } }
      owner (pre ++ [c]) := by
  obtain ⟨hg, hext, hsame, hps⟩ := hq
  exact ⟨hg.attach owner _ _, (ha.congr hext hsame).attach howner
    (lt_of_lt_of_le howner hg.walk_le) (by simp [Symbol.isPlainMethod, hinfo, hctor]) rfl rfl
    ⟨rfl, info, hinfo, hctor, hps⟩⟩

/-- Attaching the methods of one node: a project node gets the plain methods of its symbol,
in order; any other node gets nothing. -/
theorem Grown.attachMethods (hs : tree.Shaped) (hg : b.Grown tree) {owner : Nat}
    (ha : Attached tree b.graph owner []) :
    (b.attachMethods tree owner).Grown tree ∧
      Attached tree (b.attachMethods tree owner).graph (owner + 1) [] := by
  unfold HierarchyBuild.attachMethods
  split
  · -- no symbol: an external node, or past the end
    rename_i hsym
    have hn : (tree.walk .type).length ≤ owner := by
      by_contra hlt
      rw [(hg.project owner (by omega)).symbol] at hsym
      cases hsym
    exact ⟨hg, (ha.of_walk_le hn _).next⟩
  rename_i id hsym
  have howner : owner < (tree.walk .type).length := by
    by_contra hn
    by_cases hsz : owner < b.graph.types.size
    · rw [(hg.external owner (by omega) hsz).1] at hsym
      cases hsym
    · rw [Hierarchy.node_of_size_le (by omega)] at hsym
      cases hsym
  have hid : (tree.walk .type)[owner]?.getD 0 = id := by
    rw [(hg.project owner howner).symbol] at hsym
    rw [List.getElem?_eq_getElem howner, Option.getD_some]
    exact Option.some.inj hsym
  subst hid
  rw [← Array.foldl_toList]
  refine And.imp_right Attached.next ?_
  -- the members in turn
  refine foldl_induction (P := fun pre (b' : HierarchyBuild) =>
    b'.Grown tree ∧ Attached tree b'.graph owner pre) _ ⟨hg, ha⟩ ?_
  rintro pre c - b' - ⟨hg', ha'⟩
  dsimp only
  split
  · -- not a method
    rename_i hinfo
    exact ⟨hg', ha'.skip (by simp [Symbol.isPlainMethod, hinfo])⟩
  rename_i info hinfo
  split
  · -- a constructor
    rename_i hctor
    exact ⟨hg', ha'.skip (by simp [Symbol.isPlainMethod, hinfo, hctor])⟩
  rename_i hctor
  -- the non-implicit parameters in turn, each with the node of its type, then the method
  refine attachMember ha' howner hinfo (by simpa using hctor) _
    (foldl_induction (P := fun qs (q : HierarchyBuild × List ParamNode) => q.1.Grown tree ∧
      b'.graph.Extends q.1.graph ∧ b'.graph.SameMethods q.1.graph ∧
      List.Forall₂ (q.1.graph.ParamFor tree) qs q.2) _ ⟨hg', .refl _, .refl _, .nil⟩ ?_)
  rintro qs p - ⟨b₂, ps₂⟩ - ⟨hg₂, hext₂, hsame₂, hps₂⟩
  dsimp only
  split
  · rename_i ty hty
    obtain ⟨hg₃, hfor, hext₃, hsame₃⟩ := hg₂.typeNode hs ty
    refine ⟨hg₃, hext₂.trans hext₃, hsame₂.trans hsame₃, ?_⟩
    refine List.rel_append (hps₂.imp fun _ _ h => h.extend hext₃) (.cons ⟨rfl, ?_⟩ .nil)
    simp only [hty]
    exact hfor
  · rename_i hty
    refine ⟨hg₂, hext₂, hsame₂, List.rel_append hps₂ (.cons ⟨rfl, ?_⟩ .nil)⟩
    simp only [hty]

theorem eq_length_of_append_cons_eq_range {pre rest : List Nat} {i m : Nat}
    (h : pre ++ i :: rest = List.range m) : i = pre.length := by
  have hlt : pre.length < m := by
    have := congrArg List.length h
    simp only [List.length_append, List.length_cons, List.length_range] at this
    omega
  have := congrArg (·[pre.length]?) h
  simpa [List.getElem?_range hlt] using this

/-- Attaching the methods of the first `m` nodes, in turn. -/
theorem Grown.attachMethods_range (hs : tree.Shaped) (hg : b.Grown tree)
    (ha : Attached tree b.graph 0 []) (m : Nat) :
    ((List.range m).foldl (fun b i => b.attachMethods tree i) b).Grown tree ∧
      Attached tree ((List.range m).foldl (fun b i => b.attachMethods tree i) b).graph m [] := by
  have key := foldl_induction (P := fun pre (b' : HierarchyBuild) =>
      b'.Grown tree ∧ Attached tree b'.graph pre.length [])
    (f := fun b i => b.attachMethods tree i) (List.range m) ⟨hg, ha⟩
    fun pre i _ b' hl ⟨hg', ha'⟩ => by
      obtain rfl := eq_length_of_append_cons_eq_range hl
      rw [List.length_append, List.length_singleton]
      exact hg'.attachMethods hs ha'
  rwa [List.length_range] at key

end HierarchyBuild

/-! ### The hierarchy as a whole -/

variable (tree) in
/-- The hierarchy of a tree as it should be, with `n` the number of types the walk meets:
parent and child edges agree, without repeats or self edges; the first `n` nodes are the
project nodes of the walk, in its order; every later node is external, with no symbol,
parents or methods; no two nodes share a symbol and no two external nodes a name; every
method is listed exactly once, in the list of its owner, a project node; each project node
lists the plain methods of its symbol in order; and each method node stands for a plain
method directly inside its owner's symbol. -/
structure Hierarchy.WellFormed (h : Hierarchy) : Prop where
  edges : h.Edges
  walk_le : (tree.walk .type).length ≤ h.types.size
  project : ∀ k (hk : k < (tree.walk .type).length),
    (h.node k).Declares tree (tree.walk .type)[k]
  external : ∀ k, (tree.walk .type).length ≤ k →
    (h.node k).symbol = none ∧ (h.node k).parents = #[] ∧ (h.node k).methods = #[]
  symbol_inj : ∀ a c, a < h.types.size → c < h.types.size → (h.node a).symbol.isSome →
    (h.node a).symbol = (h.node c).symbol → a = c
  external_name_inj : ∀ a c, (tree.walk .type).length ≤ a → a < h.types.size →
    (tree.walk .type).length ≤ c → c < h.types.size → (h.node a).name = (h.node c).name → a = c
  owner_lt : ∀ m < h.methods.size, (h.method m).owner < (tree.walk .type).length
  count_methods : ∀ m < h.methods.size, (h.node (h.method m).owner).methods.toList.count m = 1
  mem_methods : ∀ o m, m ∈ (h.node o).methods → m < h.methods.size ∧ (h.method m).owner = o
  methods_order : ∀ o (ho : o < (tree.walk .type).length),
    (h.node o).methods.toList.map (fun m => (h.method m).symbol) =
      (tree.get (tree.walk .type)[o]).children.toList.filter fun c => (tree.get c).isPlainMethod
  method_child : ∀ m < h.methods.size, ∃ id, (h.node (h.method m).owner).symbol = some id ∧
    (h.method m).symbol ∈ (tree.get id).children ∧ (tree.get (h.method m).symbol).isPlainMethod
  method_for : ∀ m < h.methods.size, h.MethodFor tree (h.method m)

/-- Once every node is seen, what building keeps is a well-formed hierarchy. -/
theorem HierarchyBuild.Grown.wellFormed {b : HierarchyBuild} (hg : b.Grown tree) {done : Nat}
    (ha : Attached tree b.graph done []) (hd : (tree.walk .type).length ≤ done) :
    b.graph.WellFormed tree := by
  -- a method's owner and the node listing it
  have hlisted : ∀ m < b.graph.methods.size,
      m ∈ (b.graph.node (b.graph.method m).owner).methods :=
    fun m hm => (ha.mem_methods _ m).2 ⟨hm, rfl⟩
  refine ⟨hg.edges, hg.walk_le, hg.project, fun k hk => ?_, fun a c ha' hc hsome heq => ?_,
    fun a c hna ha' hnc hc heq => ?_, ha.owner_lt, fun m hm => ?_,
    fun o m hm => (ha.mem_methods o m).1 hm, fun o ho => ha.finished o ho (by omega),
    fun m hm => ?_, ha.method_for⟩
  · -- an external node owns no method: owners are project nodes
    have hmeth : (b.graph.node k).methods = #[] :=
      Array.eq_empty_iff_forall_not_mem.2 fun m hm => by
        obtain ⟨hlt, rfl⟩ := (ha.mem_methods k m).1 hm
        exact absurd (ha.owner_lt m hlt) (by omega)
    by_cases hks : k < b.graph.types.size
    · obtain ⟨h1, h2, -⟩ := hg.external k hk hks
      exact ⟨h1, h2, hmeth⟩
    · rw [Hierarchy.node_of_size_le (by omega)]
      exact ⟨rfl, rfl, rfl⟩
  · -- only project nodes have symbols, and the table of project nodes tells them apart
    by_cases han : a < (tree.walk .type).length
    · by_cases hcn : c < (tree.walk .type).length
      · rw [(hg.project a han).symbol, (hg.project c hcn).symbol, Option.some_inj] at heq
        have hna := hg.nodeOf_walk a han
        rw [heq, hg.nodeOf_walk c hcn] at hna
        exact (Option.some_inj.1 hna).symm
      · rw [(hg.external c (by omega) hc).1, (hg.project a han).symbol] at heq
        cases heq
    · rw [(hg.external a (by omega) ha').1] at hsome
      cases hsome
  · -- both are listed among the externals under their name, and no name twice
    have hma := (hg.external a hna ha').2.2
    have hmc := (hg.external c hnc hc).2.2
    rw [heq] at hma
    exact congrArg Prod.snd (List.inj_on_of_nodup_map hg.externals_nodup hma hmc rfl)
  · exact List.count_eq_one_of_mem (ha.methods_nodup _) (Array.mem_toList_iff.2 (hlisted m hm))
  · -- the owner lists the method among the plain methods of its symbol
    have ho := ha.owner_lt m hm
    have hin : (b.graph.method m).symbol ∈
        (b.graph.node (b.graph.method m).owner).methods.toList.map
          fun m => (b.graph.method m).symbol :=
      List.mem_map_of_mem (Array.mem_toList_iff.2 (hlisted m hm))
    rw [ha.finished _ ho (by omega), List.mem_filter] at hin
    exact ⟨_, (hg.project _ ho).symbol, Array.mem_toList_iff.1 hin.1, hin.2⟩

namespace Hierarchy

/-- Two hierarchies that differ at most in the overrides recorded for their methods. -/
structure SameCore (h h' : Hierarchy) : Prop where
  types : h'.types = h.types
  size : h'.methods.size = h.methods.size
  core : ∀ i, (h'.method i).core = (h.method i).core

theorem SameCore.refl (h : Hierarchy) : h.SameCore h := ⟨rfl, rfl, fun _ => rfl⟩

theorem SameCore.trans {h₁ h₂ h₃ : Hierarchy} (h₁₂ : h₁.SameCore h₂) (h₂₃ : h₂.SameCore h₃) :
    h₁.SameCore h₃ :=
  ⟨h₂₃.types.trans h₁₂.types, h₂₃.size.trans h₁₂.size,
    fun i => (h₂₃.core i).trans (h₁₂.core i)⟩

theorem SameCore.node {h h' : Hierarchy} (hc : h.SameCore h') : h'.node = h.node := by
  funext k
  unfold Hierarchy.node
  rw [hc.types]

theorem SameCore.owner {h h' : Hierarchy} (hc : h.SameCore h') (i : Nat) :
    (h'.method i).owner = (h.method i).owner :=
  congrArg (fun c => c.2.2.1) (hc.core i)

theorem SameCore.symbol {h h' : Hierarchy} (hc : h.SameCore h') (i : Nat) :
    (h'.method i).symbol = (h.method i).symbol :=
  congrArg (fun c => c.2.1) (hc.core i)

theorem SameCore.signature {h h' : Hierarchy} (hc : h.SameCore h') (i : Nat) :
    (h'.method i).signature = (h.method i).signature := by
  have hname : (h'.method i).name = (h.method i).name := congrArg Prod.fst (hc.core i)
  have hparams : (h'.method i).params = (h.method i).params :=
    congrArg (fun c => c.2.2.2) (hc.core i)
  unfold MethodNode.signature
  rw [hname, hparams]

/-- Recording an override changes no method's core. -/
theorem sameCore_setOverride (h : Hierarchy) (m o : Nat) : h.SameCore (h.setOverride m o) := by
  unfold setOverride
  refine ⟨rfl, by simp, fun i => ?_⟩
  unfold method
  dsimp only
  rw [getD_modify, Array.size_modify, getD_modify]
  split_ifs <;> rfl

/-- The search for overrides records overrides and nothing else. -/
theorem findOverrides_sameCore (tree : SymbolTree) :
    ∀ (fuel : Nat) (h : Hierarchy) (ty : Nat) (inherited : List (Signature × Nat))
      (path : List Nat), h.SameCore (h.findOverrides tree fuel ty inherited path)
  | 0, h, _, _, _ => .refl h
  | fuel + 1, h, ty, inherited, path => by
    unfold Hierarchy.findOverrides
    split
    · exact .refl h
    dsimp only
    -- the node's own methods, then each child with what the node passes on
    refine Array.foldl_induction (motive := fun _ h' => h.SameCore h') ?_ fun _ h' hh' =>
      hh'.trans (findOverrides_sameCore tree fuel _ _ _ _)
    refine Array.foldl_induction (motive := fun _ (q : Hierarchy × List (Signature × Nat)) =>
      h.SameCore q.1) (.refl h) ?_
    rintro _ ⟨h', passed⟩ hh'
    dsimp only
    split
    · exact hh'
    · dsimp only
      split
      · exact hh'.trans (sameCore_setOverride h' _ _)
      · exact hh'

/-- Searching for overrides from each root keeps every core. -/
theorem sameCore_roots (tree : SymbolTree) (h : Hierarchy) :
    h.SameCore (h.roots.foldl (fun h r => h.findOverrides tree (h.types.size + 1) r [] []) h) :=
  List.foldlRecOn (motive := fun h' => h.SameCore h') _ _ (.refl h) fun _ hh' _ _ =>
    hh'.trans (findOverrides_sameCore tree _ _ _ _ _)

/-- Well-formedness reads only the nodes and the cores of the methods. -/
theorem WellFormed.of_sameCore {h h' : Hierarchy} (hw : h.WellFormed tree) (hc : h.SameCore h') :
    h'.WellFormed tree := by
  have hnode := hc.node
  have hown := hc.owner
  have hsym := hc.symbol
  have hext : h.Extends h' := ⟨by rw [hc.types], fun k _ => by rw [hnode], fun k _ => by rw [hnode]⟩
  refine ⟨hw.edges.congr (by rw [hc.types]) fun k => by rw [hnode]; exact ⟨rfl, rfl⟩,
    ?_, ?_, ?_, ?_, ?_, fun m hm => ?_, fun m hm => ?_, fun o m hm => ?_, fun o ho => ?_,
    fun m hm => ?_, fun m hm => ?_⟩
  · rw [hc.types]
    exact hw.walk_le
  · rw [hnode]
    exact hw.project
  · rw [hnode]
    exact hw.external
  · rw [hnode, hc.types]
    exact hw.symbol_inj
  · rw [hnode, hc.types]
    exact hw.external_name_inj
  · rw [hc.size] at hm
    rw [hown]
    exact hw.owner_lt m hm
  · rw [hc.size] at hm
    rw [hown, hnode]
    exact hw.count_methods m hm
  · rw [hnode] at hm
    rw [hc.size, hown]
    exact hw.mem_methods o m hm
  · simp only [hnode, hsym]
    exact hw.methods_order o ho
  · rw [hc.size] at hm
    rw [hown, hnode, hsym]
    exact hw.method_child m hm
  · rw [hc.size] at hm
    exact (hw.method_for m hm).of_core (hc.core m) hext

end Hierarchy

open HierarchyBuild in
/-- The hierarchy of a shaped tree is built, and it is well formed. -/
theorem hierarchy_wellFormed {tree : SymbolTree} (hs : tree.Shaped) :
    ∃ h, tree.hierarchy = .ok h ∧ h.WellFormed tree := by
  unfold SymbolTree.hierarchy
  simp only [bind, Except.bind]
  rw [register_eq hs (tree.walk .type) [] _ rfl (registered_start tree)]
  refine ⟨_, rfl, ?_⟩
  -- registering the walk, linking super types, attaching methods, then the overrides
  have hr := registered_walk hs
  obtain ⟨hg₁, hbare, hmeth⟩ := hr.grown
  obtain ⟨hg₂, hsame₂⟩ := hg₁.linkSupers_range hs (le_of_eq hr.size)
  obtain ⟨hg₃, ha₃⟩ := hg₂.attachMethods_range hs
    (Attached.start (fun k => (hsame₂.node k).trans (hbare k)) (hsame₂.table.trans hmeth)) _
  exact (hg₃.wellFormed ha₃ hg₂.walk_le).of_sameCore (Hierarchy.sameCore_roots tree _)

end Lineage
