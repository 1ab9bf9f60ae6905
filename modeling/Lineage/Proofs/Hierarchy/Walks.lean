import Lineage.Proofs.Hierarchy.Ancestry
import Lineage.Report.Tree
/-!
Walks down a hierarchy end.

Two functions walk down child edges from a node, carrying the path of nodes above the one
they are at: the search for overrides (`Hierarchy.findOverrides`) and the drawing of the tree
(`nodeLines`). Both cut off a node already on the path, and go on to every child of any other
node with that node added to the path (`Hierarchy.WalkCall`). A node with a child is stored,
so a path only ever holds distinct stored nodes, and no call lies deeper than the hierarchy
has nodes (`Hierarchy.WalkCall.path_stored`).

The calls are those the two functions make. The search records in turn what each path of
`Hierarchy.pathsFrom` records (`Hierarchy.findOverrides_eq`). The drawing is the lines of
each call `drawCalls` lists, each drawn with fuel one, one after the other
(`lines_eq_join_drawCalls`). Every such path and call is a walk call
(`Hierarchy.WalkCall.of_mem_pathsFrom`, `Hierarchy.WalkCall.of_mem_drawCalls`).

Both walks run on fuel, one more than the number of nodes, and a call at depth `d` has
`d` less. Since no path of distinct stored nodes is longer than the number of nodes, a call
never runs out: with more fuel it gives the same result (`findOverrides_fuel_add`,
`nodeLines_fuel_add`). For the search, what a node's own methods do is fixed before any
child is visited and keeps every node (`findOverrides_succ`), so the hierarchy each child
call sees has the same nodes.

* `walks_end_within_nodes`: all of it for every hierarchy, cycles and self-loops included.
-/
namespace Lineage

namespace Hierarchy

variable (h : Hierarchy)

/-- The calls a walk down child edges from `r` makes: a call on `ty` with the nodes above it
on `path`, nearest first. A node already on its path is cut off and calls nothing. -/
inductive WalkCall (r : Nat) : Nat → List Nat → Prop
  | root : WalkCall r r []
  | child {ty : Nat} {path : List Nat} {c : Nat} : WalkCall r ty path → ty ∉ path →
      c ∈ (h.node ty).children → WalkCall r c (ty :: path)

variable {h}

/-- The path of a call holds distinct stored nodes: each was added by a call it did not cut
off, on a node with a child. -/
theorem WalkCall.path_stored {r ty : Nat} {path : List Nat} (hc : h.WalkCall r ty path) :
    path.Nodup ∧ ∀ x ∈ path, x < h.types.size := by
  induction hc with
  | root => exact ⟨List.nodup_nil, fun x hx => absurd hx List.not_mem_nil⟩
  | child _ hty hchild ih =>
    refine ⟨List.nodup_cons.2 ⟨hty, ih.1⟩, fun x hx => ?_⟩
    rcases List.mem_cons.1 hx with rfl | hx
    · exact h.lt_of_mem_children hchild
    · exact ih.2 x hx

/-- A walk call's node is reached from the top by child edges. -/
theorem WalkCall.reflTransGen {r ty : Nat} {path : List Nat} (hc : h.WalkCall r ty path) :
    Relation.ReflTransGen (fun a b => b ∈ (h.node a).children) r ty := by
  induction hc with
  | root => exact .refl
  | child _ _ hchild ih => exact ih.tail hchild

/-- Each path the search visits below a walk call, its last node first, is a walk call: the
search calls itself on walk calls only. -/
theorem WalkCall.of_mem_pathsFrom {r : Nat} :
    ∀ {fuel ty : Nat} {path : List Nat}, h.WalkCall r ty path →
      ∀ P ∈ h.pathsFrom fuel path ty, ∃ c q, P = c :: q ∧ h.WalkCall r c q
  | 0, _, _, _, P, hP => absurd hP List.not_mem_nil
  | fuel + 1, ty, path, hc, P, hP => by
    obtain ⟨hty, rfl | ⟨c, hchild, hP⟩⟩ := (mem_pathsFrom_succ h).1 hP
    · exact ⟨ty, path, rfl, hc⟩
    · exact of_mem_pathsFrom (hc.child hty hchild) P hP

/-- A node on its own path is cut off. -/
theorem findOverrides_of_mem (tree : SymbolTree) {ty : Nat} {path : List Nat} (hty : ty ∈ path)
    (fuel : Nat) (inherited : List (Signature × Nat)) :
    h.findOverrides tree (fuel + 1) ty inherited path = h := by
  rw [findOverrides, if_pos (List.contains_iff_mem.2 hty)]

/-- One call of the search off its path: the node's own methods give a hierarchy with the
same core and what is passed down, whatever the fuel, and then each child is searched in
turn with the node added to the path. -/
theorem findOverrides_succ (tree : SymbolTree) (h : Hierarchy) {ty : Nat} {path : List Nat}
    (hty : ty ∉ path) (inherited : List (Signature × Nat)) :
    ∃ h' passed, h.SameCore h' ∧ ∀ fuel, h.findOverrides tree (fuel + 1) ty inherited path =
      (h.node ty).children.foldl (fun B c => B.findOverrides tree fuel c passed (ty :: path)) h' := by
  have e := fun fuel => findOverrides.eq_2 tree h ty inherited path fuel
  simp only [show path.contains ty = false by simpa using hty, Bool.false_eq_true, if_false] at e
  generalize hq : Array.foldl _ (h, inherited) (h.node ty).methods = q at e
  obtain ⟨h', passed⟩ := q
  refine ⟨h', passed, ?_, e⟩
  -- recording an override is all the methods' fold does
  show h.SameCore (h', passed).1
  rw [← hq]
  refine Array.foldl_induction (motive := fun _ (q : Hierarchy × List (Signature × Nat)) =>
    h.SameCore q.1) (.refl h) ?_
  rintro _ ⟨h', passed⟩ hh'
  dsimp only
  split
  · exact hh'
  · dsimp only
    split
    · exact hh'.trans (sameCore_setOverride h' _ _)
    · exact hh'

/-- A call of the search whose path holds distinct stored nodes, with fuel beyond the number
of nodes off its path, gives with any more fuel what it gives. -/
theorem findOverrides_fuel_add (tree : SymbolTree) (k : Nat) :
    ∀ (fuel : Nat) (h : Hierarchy) (ty : Nat) (inherited : List (Signature × Nat))
      (path : List Nat), path.Nodup → (∀ x ∈ path, x < h.types.size) →
      h.types.size < fuel + path.length →
      h.findOverrides tree (fuel + k) ty inherited path =
        h.findOverrides tree fuel ty inherited path
  | 0, _, _, _, _, hnd, hlt, hf => absurd (length_le_of_nodup_of_lt hnd hlt) (by omega)
  | fuel + 1, h, ty, inherited, path, hnd, hlt, hf => by
    rw [show fuel + 1 + k = fuel + k + 1 by omega]
    by_cases hty : ty ∈ path
    · rw [findOverrides_of_mem tree hty, findOverrides_of_mem tree hty]
    obtain ⟨h', passed, hc, hstep⟩ := findOverrides_succ tree h hty inherited
    rw [hstep, hstep]
    by_cases hs : ty < h.types.size
    · -- each child in turn, on a path one stored node longer
      rw [← Array.foldl_toList, ← Array.foldl_toList]
      suffices ∀ (cs : List Nat) (B : Hierarchy), h.SameCore B →
          cs.foldl (fun B c => B.findOverrides tree (fuel + k) c passed (ty :: path)) B =
            cs.foldl (fun B c => B.findOverrides tree fuel c passed (ty :: path)) B from
        this _ h' hc
      intro cs
      induction cs with
      | nil => exact fun _ _ => rfl
      | cons c cs ih =>
        intro B hB
        have hsize : B.types.size = h.types.size := by rw [hB.types]
        rw [List.foldl_cons, List.foldl_cons,
          findOverrides_fuel_add tree k fuel B c passed (ty :: path)
            (List.nodup_cons.2 ⟨hty, hnd⟩) (fun x hx => ?_) (by simp only [List.length_cons]; omega)]
        · exact ih _ (hB.trans (findOverrides_sameCore tree _ _ _ _ _))
        · rw [hsize]
          rcases List.mem_cons.1 hx with rfl | hx
          · exact hs
          · exact hlt x hx
    · -- a node past the table has no children
      rw [node_of_size_le (Nat.le_of_not_lt hs)]
      rfl

end Hierarchy

/-- A node on its own path is drawn once, marked as a cycle. -/
theorem nodeLines_of_mem (tree : SymbolTree) (h : Hierarchy) (chars : TreeChars) {ty : Nat}
    {path : List Nat} (hty : ty ∈ path) (fuel : Nat) (above connecting below : String)
    (parent : Option Nat) :
    nodeLines tree h chars (fuel + 1) above connecting below ty parent path =
      blankLine above ++ connecting ++ (h.node ty).construct ++ " " ++ (h.node ty).name ++
        " [cycle]\n" := by
  rw [nodeLines, if_pos (List.contains_iff_mem.2 hty)]

/-- A call of the drawing whose path holds distinct stored nodes, with fuel beyond the number
of nodes off its path, draws with any more fuel what it draws. -/
theorem nodeLines_fuel_add (tree : SymbolTree) (h : Hierarchy) (chars : TreeChars) (k : Nat) :
    ∀ (fuel : Nat) (above connecting below : String) (ty : Nat) (parent : Option Nat)
      (path : List Nat), path.Nodup → (∀ x ∈ path, x < h.types.size) →
      h.types.size < fuel + path.length →
      nodeLines tree h chars (fuel + k) above connecting below ty parent path =
        nodeLines tree h chars fuel above connecting below ty parent path
  | 0, _, _, _, _, _, _, hnd, hlt, hf => absurd (length_le_of_nodup_of_lt hnd hlt) (by omega)
  | fuel + 1, above, connecting, below, ty, parent, path, hnd, hlt, hf => by
    rw [show fuel + 1 + k = fuel + k + 1 by omega]
    by_cases hty : ty ∈ path
    · rw [nodeLines_of_mem tree h chars hty, nodeLines_of_mem tree h chars hty]
    rw [nodeLines, nodeLines]
    simp only [show path.contains ty = false by simpa using hty, Bool.false_eq_true, if_false]
    -- the children are drawn on a path one stored node longer
    congr 2
    refine List.map_congr_left fun q hq => ?_
    have hc : q.1 ∈ (h.node ty).children := Array.mem_toList_iff.1 (List.fst_mem_of_mem_zipIdx hq)
    refine nodeLines_fuel_add tree h chars k fuel _ _ _ q.1 (some ty) (ty :: path)
      (List.nodup_cons.2 ⟨hty, hnd⟩) (fun x hx => ?_) (by simp only [List.length_cons]; omega)
    rcases List.mem_cons.1 hx with rfl | hx
    · exact h.lt_of_mem_children hc
    · exact hlt x hx

/-! ### The calls of the drawing -/

/-- A call of the drawing: the three strings a node is drawn with (the indentation above it,
the stroke that connects it, the indentation below it), the node, the node it is drawn below,
and the path of nodes above it, nearest first. -/
structure DrawCall where
  above : String
  connecting : String
  below : String
  ty : Nat
  parent : Option Nat
  path : List Nat

namespace DrawCall

/-- The call that draws a tree from its top node. -/
def start (ty : Nat) : DrawCall := ⟨treeIndent, treeIndent, treeIndent, ty, none, []⟩

section Calls

variable (tree : SymbolTree) (h : Hierarchy) (chars : TreeChars)

/-- What a call draws with the fuel it is given. -/
def lines (fuel : Nat) (d : DrawCall) : String :=
  nodeLines tree h chars fuel d.above d.connecting d.below d.ty d.parent d.path

/-- The calls a call off its path makes on the children of its node, in their order, each
with the strings of its place among them. -/
def childCalls (d : DrawCall) : List DrawCall :=
  let children := (h.node d.ty).children.toList
  let vertical := chars.vertical.toString ++ "   "
  children.zipIdx.map fun (child, i) =>
    let isLast := i + 1 == children.length
    let stroke := if isLast then chars.corner else chars.intersect
    let nextBelow := if isLast then d.below ++ treeIndent else d.below ++ vertical
    ⟨d.below ++ vertical,
      d.below ++ String.ofList [stroke, chars.horizontal, chars.horizontal, ' '],
      nextBelow, child, some d.ty, d.ty :: d.path⟩

/-- A call off its path draws its own lines, what it draws with fuel one, and then what its
calls on the children draw with the fuel left. -/
theorem lines_succ {d : DrawCall} (hty : d.ty ∉ d.path) (fuel : Nat) :
    d.lines tree h chars (fuel + 1) =
      d.lines tree h chars 1 ++
        String.join ((d.childCalls h chars).map (lines tree h chars fuel)) := by
  -- with no fuel left, the calls on the children draw nothing
  have hnone : ∀ l : List (Nat × Nat), String.join (l.map fun _ => "") = "" := fun l => by
    induction l with
    | nil => rfl
    | cons x l ih => rw [List.map_cons, String.join_cons, ih, String.append_empty]
  unfold lines childCalls
  rw [nodeLines, nodeLines]
  simp only [show d.path.contains d.ty = false by simpa using hty, Bool.false_eq_true, if_false,
    List.map_map, Function.comp_def, nodeLines, hnone, String.append_empty]

theorem mem_childCalls {d c : DrawCall} (hc : c ∈ d.childCalls h chars) :
    c.ty ∈ (h.node d.ty).children ∧ c.path = d.ty :: d.path := by
  unfold childCalls at hc
  obtain ⟨⟨child, i⟩, hci, rfl⟩ := List.mem_map.1 hc
  exact ⟨Array.mem_toList_iff.1 (List.fst_mem_of_mem_zipIdx hci), rfl⟩

end Calls

end DrawCall

/-- The calls the drawing makes from `d` with the given fuel, depth first, `d` first: a call
off its path goes on to its children with one less fuel, a call on its path stops. -/
def drawCalls (h : Hierarchy) (chars : TreeChars) : Nat → DrawCall → List DrawCall
  | 0, _ => []
  | fuel + 1, d =>
    d :: if d.path.contains d.ty then [] else (d.childCalls h chars).flatMap (drawCalls h chars fuel)

/-- Joining the joins of a list's parts is joining the parts' lists in turn. -/
theorem join_map_join {α : Type} (f : α → List String) :
    ∀ l : List α, String.join (l.map fun a => String.join (f a)) = String.join (l.flatMap f)
  | [] => rfl
  | a :: l => by
    rw [List.map_cons, List.flatMap_cons, String.join_cons, String.join_append,
      join_map_join f l]

/-- The drawing from a call is the lines of its calls, each drawn on its own, one after the
other: the calls `drawCalls` lists are the calls `nodeLines` makes. -/
theorem lines_eq_join_drawCalls (tree : SymbolTree) (h : Hierarchy) (chars : TreeChars) :
    ∀ (fuel : Nat) (d : DrawCall),
      d.lines tree h chars fuel =
        String.join ((drawCalls h chars fuel d).map (DrawCall.lines tree h chars 1))
  | 0, d => rfl
  | fuel + 1, d => by
    by_cases hty : d.ty ∈ d.path
    · -- a call on its path draws one line, whatever its fuel
      rw [drawCalls, if_pos (List.contains_iff_mem.2 hty), List.map_singleton, String.join_cons,
        String.join_nil, String.append_empty]
      unfold DrawCall.lines
      rw [nodeLines_of_mem tree h chars hty, nodeLines_of_mem tree h chars hty]
    · rw [DrawCall.lines_succ tree h chars hty, drawCalls, if_neg (by simpa using hty),
        List.map_cons, String.join_cons, List.map_flatMap, ← join_map_join]
      congr 2
      exact List.map_congr_left fun c _ => lines_eq_join_drawCalls tree h chars fuel c

/-- Every call the drawing makes from a walk call is a walk call. -/
theorem Hierarchy.WalkCall.of_mem_drawCalls {h : Hierarchy} {chars : TreeChars} {r : Nat} :
    ∀ {fuel : Nat} {d e : DrawCall}, h.WalkCall r d.ty d.path → e ∈ drawCalls h chars fuel d →
      h.WalkCall r e.ty e.path
  | 0, _, _, _, he => absurd he List.not_mem_nil
  | fuel + 1, d, e, hd, he => by
    rw [drawCalls] at he
    rcases List.mem_cons.1 he with rfl | he
    · exact hd
    split at he
    · exact absurd he List.not_mem_nil
    · rename_i hty
      obtain ⟨c, hc, he⟩ := List.mem_flatMap.1 he
      obtain ⟨hchild, hpath⟩ := DrawCall.mem_childCalls h chars hc
      have hcall : h.WalkCall r c.ty c.path := hpath ▸ .child hd (by simpa using hty) hchild
      exact of_mem_drawCalls hcall he

/-- The search for overrides and the drawing of the tree end on every hierarchy, cycles and
self-loops included. From a node, the search records in turn what each path it visits
records, and the drawing is the lines of each call it makes, one after the other. Every path
visited and every call made is a walk call, on a path of distinct nodes, so no walk goes
deeper than the hierarchy has nodes; and the fuel each walk is given from a node, one more
than the number of nodes, never runs out: any more gives the same result. -/
theorem walks_end_within_nodes (tree : SymbolTree) (h : Hierarchy) (r : Nat) :
    (∀ ty path, h.WalkCall r ty path → path.Nodup ∧ path.length ≤ h.types.size) ∧
    (h.findOverrides tree (h.types.size + 1) r [] [] =
        h.setOverrides ((h.pathsFrom (h.types.size + 1) [] r).flatMap (h.pathOverrides tree)) ∧
      ∀ P ∈ h.pathsFrom (h.types.size + 1) [] r, ∃ ty path, P = ty :: path ∧ h.WalkCall r ty path) ∧
    (∀ chars above connecting below parent,
      nodeLines tree h chars (h.types.size + 1) above connecting below r parent [] =
          String.join ((drawCalls h chars (h.types.size + 1)
            ⟨above, connecting, below, r, parent, []⟩).map (DrawCall.lines tree h chars 1)) ∧
        ∀ d ∈ drawCalls h chars (h.types.size + 1) ⟨above, connecting, below, r, parent, []⟩,
          h.WalkCall r d.ty d.path) ∧
    (∀ inherited k, h.findOverrides tree (h.types.size + 1 + k) r inherited [] =
      h.findOverrides tree (h.types.size + 1) r inherited []) ∧
    ∀ chars above connecting below parent k,
      nodeLines tree h chars (h.types.size + 1 + k) above connecting below r parent [] =
        nodeLines tree h chars (h.types.size + 1) above connecting below r parent [] := by
  refine ⟨fun ty path hc => ?_, ⟨?_, fun P hP => ?_⟩, fun chars above connecting below parent =>
    ⟨lines_eq_join_drawCalls tree h chars _ ⟨above, connecting, below, r, parent, []⟩,
      fun d hd => ?_⟩, fun inherited k => ?_,
    fun chars above connecting below parent k => ?_⟩
  · obtain ⟨hnd, hlt⟩ := hc.path_stored
    exact ⟨hnd, length_le_of_nodup_of_lt hnd hlt⟩
  · -- the search from a root, with nothing passed down to it
    have hsearch := Hierarchy.findOverrides_eq tree h (h.types.size + 1) h r [] (.refl h)
    rwa [Hierarchy.passedDown_nil] at hsearch
  · exact Hierarchy.WalkCall.of_mem_pathsFrom (h := h) .root P hP
  · exact Hierarchy.WalkCall.of_mem_drawCalls .root hd
  · exact Hierarchy.findOverrides_fuel_add tree k _ h r inherited [] List.nodup_nil
      (fun x hx => absurd hx List.not_mem_nil) (by simp)
  · exact nodeLines_fuel_add tree h chars k _ above connecting below r parent [] List.nodup_nil
      (fun x hx => absurd hx List.not_mem_nil) (by simp)

end Lineage
