import Mathlib
import Lineage.Proofs.Hierarchy.Walks
/-!
Which types the drawing of a hierarchy shows.

The drawing starts a tree at each root, a node without parents and with children, and lists
each project node without edges in a section of its own. Every other node is drawn only where
the walk down child edges from some root reaches it (`Hierarchy.WalkCall`): a node off its
path is drawn with its header line (`nodeHeader`, `nodeLines_shows_header`) and then each of
its children (`nodeLines_shows_child`), and the fuel, one more than the number of nodes, does
not run out first (`Hierarchy.WalkCall.nodeLines_shows`).

A node below a root by child edges is reached off its path: a chain of child edges that meets
a node twice is cut back to its first meeting (`Hierarchy.exists_walkCall`).

Conversely, every call the drawing makes from a node without parents is a walk call from it
(`Hierarchy.WalkCall.of_mem_drawCalls`), so it is on a node that the starting node is an
ancestor of, or the starting node itself (`Hierarchy.Edges.rooted_of_walkCall`).

* `drawing_shows_rooted_types`: with the section of types without inheritance, the report
  shows the header of every rooted project type (`Hierarchy.Rooted`: without parents or
  descending from a type without parents), whatever the shape of the inheritance. No call of
  the drawing of a root or of a type without inheritance is on a type that is not rooted.
* `treeReport_of_parented`: when every type has a parent, as on a cycle of inheritance
  without a way in, the report is its heading alone (`cycle_escapes_drawing`).
-/
namespace Lineage

/-- The header of a node in the drawing: its modifiers but `public`, its construct, its name
and type parameters, and `[external]` for an external node. -/
def nodeHeader (tree : SymbolTree) (h : Hierarchy) (ty : Nat) : String :=
  let n := h.node ty
  let sym := n.symbol.map tree.get
  let mods := match sym with
    | some s => String.join ((s.modifiers.toList.filter (· != .publicAccess)).map fun m =>
        modifierLabel m ++ " ")
    | none => ""
  mods ++ n.construct ++ " " ++ n.name ++ ((sym.bind (·.typeParams)).getD "") ++
    (if n.isExternal then " [external]" else "")

theorem toList_infix_append_left (s t : String) : s.toList <:+: (s ++ t).toList := by
  rw [String.toList_append]
  exact (List.prefix_append _ _).isInfix

theorem toList_infix_append_right (s t : String) : t.toList <:+: (s ++ t).toList := by
  rw [String.toList_append]
  exact (List.suffix_append _ _).isInfix

namespace Hierarchy

variable {h : Hierarchy}

/-- The path of a walk call is no longer than the hierarchy has nodes. -/
theorem WalkCall.length_le {r ty : Nat} {path : List Nat} (hc : h.WalkCall r ty path) :
    path.length ≤ h.types.size := by
  obtain ⟨hnd, hlt⟩ := hc.path_stored
  exact length_le_of_nodup_of_lt hnd hlt

/-- Every node on the path of a walk call was itself called, off its own path. -/
theorem WalkCall.of_mem_path {r ty x : Nat} {path : List Nat} (hc : h.WalkCall r ty path)
    (hx : x ∈ path) : ∃ q, h.WalkCall r x q ∧ x ∉ q := by
  induction hc with
  | root => exact absurd hx List.not_mem_nil
  | @child ty path c hc hty _ ih =>
    rcases List.mem_cons.1 hx with rfl | hx
    · exact ⟨path, hc, hty⟩
    · exact ih hx

/-- A node reached from `r` by child edges is called by the walk from `r` off its path: a
path that meets a node twice is cut back to where the node was first met. -/
theorem exists_walkCall {r n : Nat}
    (hr : Relation.ReflTransGen (fun a b => b ∈ (h.node a).children) r n) :
    ∃ path, h.WalkCall r n path ∧ n ∉ path := by
  induction hr with
  | refl => exact ⟨[], .root, List.not_mem_nil⟩
  | @tail m c _ hchild ih =>
    obtain ⟨path, hm, hmp⟩ := ih
    have hcall : h.WalkCall r c (m :: path) := .child hm hmp hchild
    by_cases hcp : c ∈ m :: path
    · exact hcall.of_mem_path hcp
    · exact ⟨m :: path, hcall, hcp⟩

/-- A root is a stored node without parents and with children. -/
theorem mem_roots_iff {r : Nat} :
    r ∈ h.roots ↔
      r < h.types.size ∧ (h.node r).parents = #[] ∧ (h.node r).children ≠ #[] := by
  simp [roots]

/-- A standalone node is a stored project node without parents or children. -/
theorem mem_standalone_iff {r : Nat} :
    r ∈ h.standalone ↔ r < h.types.size ∧ (h.node r).isExternal = false ∧
      (h.node r).parents = #[] ∧ (h.node r).children = #[] := by
  simp [standalone, and_assoc]

end Hierarchy

section Drawing

variable (tree : SymbolTree) (h : Hierarchy) (chars : TreeChars)

/-- A node off its path is drawn with its header on a line of its own. -/
theorem nodeLines_shows_header {ty : Nat} {path : List Nat} (hty : ty ∉ path) (fuel : Nat)
    (above connecting below : String) (parent : Option Nat) :
    (nodeHeader tree h ty ++ "\n").toList <:+:
      (nodeLines tree h chars (fuel + 1) above connecting below ty parent path).toList := by
  rw [nodeLines]
  simp only [show path.contains ty = false by simpa using hty, Bool.false_eq_true, if_false]
  -- the header line stands after the parents drawn above the node and before its methods
  refine List.IsInfix.trans ?_ ((toList_infix_append_right _ _).trans
    ((toList_infix_append_left _ _).trans (toList_infix_append_left _ _)))
  simp only [nodeHeader, String.toList_append, List.append_assoc]
  exact (List.suffix_append _ _).isInfix

/-- A node off its path draws each of its children below it, with itself added to the path. -/
theorem nodeLines_shows_child {ty c : Nat} {path : List Nat} (hty : ty ∉ path)
    (hc : c ∈ (h.node ty).children) (fuel : Nat) (above connecting below : String)
    (parent : Option Nat) :
    ∃ a cn b, (nodeLines tree h chars fuel a cn b c (some ty) (ty :: path)).toList <:+:
      (nodeLines tree h chars (fuel + 1) above connecting below ty parent path).toList := by
  obtain ⟨i, hi⟩ := List.mem_iff_getElem?.1 (Array.mem_toList_iff.2 hc)
  have hci : (c, i) ∈ (h.node ty).children.toList.zipIdx := List.mem_zipIdx_iff_getElem?.2 hi
  rw [nodeLines]
  simp only [show path.contains ty = false by simpa using hty, Bool.false_eq_true, if_false]
  -- the children are drawn last, one after the other, the `i`-th with the stroke and the
  -- indentation of its place
  let last := i + 1 == (h.node ty).children.toList.length
  refine ⟨below ++ (chars.vertical.toString ++ "   "),
    below ++ String.ofList [if last then chars.corner else chars.intersect, chars.horizontal,
      chars.horizontal, ' '],
    if last then below ++ treeIndent else below ++ (chars.vertical.toString ++ "   "),
    List.IsInfix.trans ?_ (toList_infix_append_right _ _)⟩
  rw [String.toList_join, List.flatMap_def]
  exact List.infix_of_mem_flatten
    (List.mem_map.2 ⟨_, List.mem_map.2 ⟨(c, i), hci, rfl⟩, rfl⟩)

/-- A walk call whose node is off its path is drawn, with its header, inside the drawing of
the root it starts from. -/
theorem Hierarchy.WalkCall.nodeLines_shows {r ty : Nat} {path : List Nat}
    (hc : h.WalkCall r ty path) (above connecting below : String) (parent : Option Nat) :
    ∃ a cn b par,
      (nodeLines tree h chars (h.types.size + 1 - path.length) a cn b ty par path).toList <:+:
        (nodeLines tree h chars (h.types.size + 1) above connecting below r parent []).toList := by
  induction hc with
  | root => exact ⟨above, connecting, below, parent, List.infix_refl _⟩
  | @child ty path c hc hty hchild ih =>
    obtain ⟨a, cn, b, par, hi⟩ := ih
    -- the path holds distinct stored nodes, so the fuel of the call has not run out
    have hlen := hc.length_le
    rw [show h.types.size + 1 - path.length = h.types.size - path.length + 1 by omega] at hi
    obtain ⟨a', cn', b', hi'⟩ :=
      nodeLines_shows_child tree h chars hty hchild (h.types.size - path.length) a cn b par
    refine ⟨a', cn', b', some ty, ?_⟩
    rw [List.length_cons,
      show h.types.size + 1 - (path.length + 1) = h.types.size - path.length by omega]
    exact hi'.trans hi

/-- A node reached by a walk call off its path has its header in the drawing of the root. -/
theorem Hierarchy.WalkCall.shows_header {r ty : Nat} {path : List Nat}
    (hc : h.WalkCall r ty path) (hty : ty ∉ path) (above connecting below : String)
    (parent : Option Nat) :
    (nodeHeader tree h ty ++ "\n").toList <:+:
      (nodeLines tree h chars (h.types.size + 1) above connecting below r parent []).toList := by
  obtain ⟨a, cn, b, par, hi⟩ := hc.nodeLines_shows tree h chars above connecting below parent
  have hlen := hc.length_le
  rw [show h.types.size + 1 - path.length = h.types.size - path.length + 1 by omega] at hi
  exact (nodeLines_shows_header tree h chars hty _ a cn b par).trans hi

end Drawing


/-- The drawing of each root, and with the section of types without inheritance the drawing
of each of them, stands in the report. -/
theorem treeReport_shows_drawn (cb : Codebase) (h : Hierarchy) (opts : TreeOptions) {r : Nat}
    (hr : r ∈ h.roots ∨ opts.showStandalone = true ∧ r ∈ h.standalone) :
    ∃ chars, (nodeLines cb.tree h chars (h.types.size + 1) treeIndent treeIndent treeIndent r none
      []).toList <:+: (treeReport cb h opts).toList := by
  refine ⟨if opts.ascii then TreeChars.ascii else TreeChars.unicode, ?_⟩
  -- a drawn node is one of the drawings joined in its section
  have hjoin : ∀ l : List Nat, r ∈ l →
      (nodeLines cb.tree h (if opts.ascii then TreeChars.ascii else TreeChars.unicode)
        (h.types.size + 1) treeIndent treeIndent treeIndent r none []).toList <:+:
      (String.join (l.map fun ty => nodeLines cb.tree h
        (if opts.ascii then TreeChars.ascii else TreeChars.unicode) (h.types.size + 1)
        treeIndent treeIndent treeIndent ty none [] ++ "\n")).toList := by
    intro l hl
    rw [String.toList_join, List.flatMap_def]
    exact (toList_infix_append_left _ _).trans (List.infix_of_mem_flatten
      (List.mem_map.2 ⟨_, List.mem_map.2 ⟨r, hl, rfl⟩, rfl⟩))
  have hsort : ∀ l : List Nat, r ∈ l → r ∈ sortByName h l := fun l hl => by
    rw [sortByName, List.mem_mergeSort]
    exact hl
  unfold treeReport
  dsimp only
  rcases hr with hr | ⟨hshow, hs⟩
  · -- among the trees
    have hne : (sortByName h h.roots).isEmpty = false :=
      List.isEmpty_eq_false_iff.2 (List.ne_nil_of_mem (hsort _ hr))
    rw [hne, if_neg Bool.false_ne_true]
    exact (hjoin _ (hsort _ hr)).trans ((toList_infix_append_right _ _).trans
      ((toList_infix_append_right _ _).trans (toList_infix_append_left _ _)))
  · -- in the section of types without inheritance
    have hne : (sortByName h h.standalone).isEmpty = false :=
      List.isEmpty_eq_false_iff.2 (List.ne_nil_of_mem (hsort _ hs))
    rw [hshow, hne, Bool.not_false, Bool.and_self, if_pos rfl]
    exact (hjoin _ (hsort _ hs)).trans ((toList_infix_append_right _ _).trans
      (toList_infix_append_right _ _))

/-- A hierarchy in which every node has a parent has no root and no node without
inheritance: its report is the heading and no more. -/
theorem treeReport_of_parented (cb : Codebase) (h : Hierarchy) (opts : TreeOptions)
    (hp : ∀ k < h.types.size, (h.node k).parents ≠ #[]) :
    treeReport cb h opts = "\n" ++ cb.language.displayName ++ " (" ++ toString cb.fileCount ++
      " file" ++ plural cb.fileCount ++ ", " ++ toString h.types.size ++ " type" ++
      plural h.types.size ++ ")\n\n" ++ "No inheritance found\n" := by
  have hroots : h.roots = [] :=
    List.eq_nil_iff_forall_not_mem.2 fun r hr =>
      (hp r (h.mem_roots_iff.1 hr).1) (h.mem_roots_iff.1 hr).2.1
  have hstand : h.standalone = [] :=
    List.eq_nil_iff_forall_not_mem.2 fun r hr =>
      (hp r (h.mem_standalone_iff.1 hr).1) (h.mem_standalone_iff.1 hr).2.2.1
  unfold treeReport
  simp only [hroots, hstand, sortByName, List.mergeSort_nil, List.isEmpty_nil,
    if_true, Bool.not_true, Bool.and_false, Bool.false_eq_true, if_false, String.append_empty]

/-- A node is rooted when it has no parents, or reaches along parent edges a node without
parents. -/
def Hierarchy.Rooted (h : Hierarchy) (n : Nat) : Prop :=
  ∃ r, Relation.ReflTransGen (fun a b => b ∈ (h.node a).parents) n r ∧ (h.node r).parents = #[]

/-- A walk down child edges from a node without parents reaches rooted nodes only: the node
it starts from is an ancestor of each, or the node itself. -/
theorem Hierarchy.Edges.rooted_of_walkCall {h : Hierarchy} (he : h.Edges) {r n : Nat}
    {path : List Nat} (hr : (h.node r).parents = #[]) (hc : h.WalkCall r n path) : h.Rooted n := by
  refine ⟨r, ?_, hr⟩
  -- each child edge down from `r` is a parent edge back up to it
  exact Relation.reflTransGen_swap.1
    (Relation.ReflTransGen.mono (fun a b hab => (he.parent_iff_child b a).2 hab) r n hc.reflTransGen)

/-- Whatever the shape of the inheritance, the report of a codebase with the section of types
without inheritance shows the header of every rooted project type, and draws no other type.
A rooted type is reached by the walk down child edges from an ancestor without parents, off
its path, and that ancestor is drawn as a root, or, childless, in the section of its own.
A type that is not rooted has parents, so it is no node without inheritance; and no call of
the drawing from a root or a node without inheritance is on it, since every such call is on
a rooted node. -/
theorem drawing_shows_rooted_types (cb : Codebase) (T : Hierarchy) (hT : cb.hierarchy = .ok T)
    (opts : TreeOptions) (hshow : opts.showStandalone = true) (n : Nat)
    (hproj : (T.node n).isExternal = false) :
    (T.Rooted n → (nodeHeader cb.tree T n ++ "\n").toList <:+: (treeReport cb T opts).toList) ∧
    (¬ T.Rooted n → ∀ r ∈ T.roots ++ T.standalone, ∀ chars,
      ∀ d ∈ drawCalls T chars (T.types.size + 1) (DrawCall.start r), d.ty ≠ n) := by
  have he := hierarchy_edges hT
  refine ⟨fun ⟨r, hpath, hroot⟩ => ?_, fun hn r hr chars d hd hdn => ?_⟩
  · have hdown : Relation.ReflTransGen (fun a b => b ∈ (T.node a).children) r n :=
      Relation.ReflTransGen.mono (fun a b hab => (he.parent_iff_child b a).1 hab) r n
        (Relation.reflTransGen_swap.2 hpath)
    obtain ⟨path, hcall, hnp⟩ := Hierarchy.exists_walkCall hdown
    have hdrawn : r ∈ T.roots ∨ opts.showStandalone = true ∧ r ∈ T.standalone := by
      by_cases hch : (T.node r).children = #[]
      · -- without children the ancestor is the type itself, drawn in the section of its own
        have hnr : r = n := by
          rcases hdown.cases_head with hnr | ⟨c, hc, -⟩
          · exact hnr
          · rw [hch] at hc
            exact absurd hc (Array.not_mem_empty c)
        subst hnr
        have hlt : r < T.types.size := by
          by_contra hge
          rw [Hierarchy.node_of_size_le (Nat.le_of_not_lt hge)] at hproj
          exact Bool.noConfusion hproj
        exact Or.inr ⟨hshow, T.mem_standalone_iff.2 ⟨hlt, hproj, hroot, hch⟩⟩
      · obtain ⟨c, hc⟩ := Array.exists_mem_of_ne_empty _ hch
        exact Or.inl (T.mem_roots_iff.2 ⟨(he.lt_of_child hc).1, hroot, hch⟩)
    obtain ⟨chars, hdraw⟩ := treeReport_shows_drawn cb T opts hdrawn
    exact (hcall.shows_header cb.tree T chars hnp _ _ _ none).trans hdraw
  · -- roots and nodes without inheritance have no parents
    have hr0 : (T.node r).parents = #[] := by
      rcases List.mem_append.1 hr with hr | hr
      · exact (T.mem_roots_iff.1 hr).2.1
      · exact (T.mem_standalone_iff.1 hr).2.2.1
    have hcall := Hierarchy.WalkCall.of_mem_drawCalls (h := T) .root hd
    rw [hdn] at hcall
    exact hn (he.rooted_of_walkCall hr0 hcall)

/-- Shapes, one file of a class and a class that extends it: what the hierarchy reads of
its symbols, the project, the file and the two classes. -/
def shapesTree : SymbolTree :=
  ⟨#[{ name := "project", kind := .project "java", children := #[1] },
     { name := "Shapes.java", kind := .file, file := some 0, parent := some 0,
       children := #[2, 3] },
     { name := "Shape", kind := .type
         { category := .classType, construct := "class" }, file := some 0, parent := some 1 },
     { name := "Square", kind := .type
         { category := .classType, construct := "class",
           supers := [TypeRef.parse 3 "Shape" .classType none] },
       file := some 0, parent := some 1 }], #[]⟩

/-- The hierarchy of `shapesTree`. -/
def shapesHierarchy : Hierarchy :=
  ⟨#[{ name := "Shape", category := .classType, construct := "class", symbol := some 2,
        file := some 0, children := #[1] },
     { name := "Square", category := .classType, construct := "class", symbol := some 3,
        file := some 0, parents := #[0] }], #[]⟩

/-- The class that extends another is drawn below it. -/
theorem square_drawn_below_shape :
    ∃ T, (⟨.java, shapesTree, 1⟩ : Codebase).hierarchy = .ok T ∧ (T.node 1).isExternal = false ∧
      Relation.ReflTransGen (fun a b => b ∈ (T.node a).parents) 1 0 ∧ (T.node 0).parents = #[] ∧
      (nodeHeader shapesTree T 1 ++ "\n").toList <:+:
        (treeReport ⟨.java, shapesTree, 1⟩ T {}).toList := by
  have hT : (⟨.java, shapesTree, 1⟩ : Codebase).hierarchy = .ok shapesHierarchy := by cbv
  have hpath : Relation.ReflTransGen (fun a b => b ∈ (shapesHierarchy.node a).parents) 1 0 :=
    .single (show 0 ∈ #[0] by simp)
  exact ⟨shapesHierarchy, hT, rfl, hpath, rfl,
    (drawing_shows_rooted_types _ _ hT {} rfl 1 rfl).1 ⟨0, hpath, rfl⟩⟩

/-- One file of two classes, each declared to extend the other: what the hierarchy reads of
its symbols. -/
def cycleTree : SymbolTree :=
  ⟨#[{ name := "project", kind := .project "java", children := #[1] },
     { name := "A.java", kind := .file, file := some 0, parent := some 0, children := #[2, 3] },
     { name := "A", kind := .type
         { category := .classType, construct := "class",
           supers := [TypeRef.parse 2 "B" .classType none] },
       file := some 0, parent := some 1 },
     { name := "B", kind := .type
         { category := .classType, construct := "class",
           supers := [TypeRef.parse 3 "A" .classType none] },
       file := some 0, parent := some 1 }], #[]⟩

/-- The hierarchy of `cycleTree`: each class is the parent of the other. -/
def cycleHierarchy : Hierarchy :=
  ⟨#[{ name := "A", category := .classType, construct := "class", symbol := some 2,
        file := some 0, parents := #[1], children := #[1] },
     { name := "B", category := .classType, construct := "class", symbol := some 3,
        file := some 0, parents := #[0], children := #[0] }], #[]⟩

/-- Two project classes that extend each other have no ancestor without parents, and the
report shows neither: it says no inheritance was found. -/
theorem cycle_escapes_drawing :
    ∃ T, (⟨.java, cycleTree, 1⟩ : Codebase).hierarchy = .ok T ∧
      (T.node 0).isExternal = false ∧ (T.node 1).isExternal = false ∧
      treeReport ⟨.java, cycleTree, 1⟩ T {} = "\nJava (1 file, 2 types)\n\nNo inheritance found\n" ∧
      ¬ (nodeHeader cycleTree T 0 ++ "\n").toList <:+: (treeReport ⟨.java, cycleTree, 1⟩ T {}).toList := by
  have hT : (⟨.java, cycleTree, 1⟩ : Codebase).hierarchy = .ok cycleHierarchy := by cbv
  have hreport : treeReport ⟨.java, cycleTree, 1⟩ cycleHierarchy {} =
      "\nJava (1 file, 2 types)\n\nNo inheritance found\n" := by
    rw [treeReport_of_parented _ _ _ fun k hk => ?_]
    · rfl
    · have hk' : k = 0 ∨ k = 1 := by
        change k < 2 at hk
        omega
      rcases hk' with rfl | rfl
      · exact Array.ne_empty_of_size_pos (show 0 < 1 by decide)
      · exact Array.ne_empty_of_size_pos (show 0 < 1 by decide)
  refine ⟨cycleHierarchy, hT, rfl, rfl, hreport, ?_⟩
  rw [hreport]
  decide +kernel

end Lineage
