import Lineage.Symbol.Resolve
import Lineage.Proofs.Tree.Walk
/-!
Names resolve only to stored symbols of the class asked for, below the root.

Every way a name is resolved ends at a child of some stored symbol: among a scope's
children, through an import whose source is a child (of the root, of a package, of what a
path names), or at a container. In a linked tree a child is stored and is not the root
(`Candidate`), and the class is checked where the candidate is taken. In a shaped tree the
candidates for a type are therefore the symbols the walk over types visits
(`TypeRef.mem_walk_of_mem_resolve`), which is what lets the hierarchy give every resolved
super type its project node.
-/
namespace Lineage

namespace SymbolTree

variable {t : SymbolTree}

/-- A symbol a name may resolve to: stored, not the root, and of the class asked for. -/
def Candidate (t : SymbolTree) (cls : SymbolClass) (x : Nat) : Prop :=
  x ≠ 0 ∧ x < t.size ∧ cls.accepts (t.get x).kind = true

theorem Linked.candidate_of_mem_children (h : t.Linked) {cls : SymbolClass} {p x : Nat}
    (hx : x ∈ (t.get p).children) (hacc : cls.accepts (t.get x).kind = true) :
    t.Candidate cls x :=
  ⟨h.ne_root_of_mem_children hx, h.lt_of_mem_children hx, hacc⟩

theorem resolveLocallyWith_candidate (h : t.Linked) (cls : SymbolClass) :
    ∀ (fuel scope : Nat) (names : List String) (x : Nat),
      x ∈ t.resolveLocallyWith cls fuel scope names → t.Candidate cls x
  | 0, _, _, _, hx => by simp [resolveLocallyWith] at hx
  | fuel + 1, scope, names, x, hx => by
    simp only [resolveLocallyWith, List.mem_flatMap] at hx
    obtain ⟨child, hchild, hx⟩ := hx
    rw [Array.mem_toList_iff] at hchild
    -- a file passes the name on; otherwise the first component must name the child
    split at hx
    · exact resolveLocallyWith_candidate h cls fuel child names x hx
    · split at hx
      · split at hx
        · split at hx
          · split at hx
            · rw [List.mem_singleton] at hx
              subst hx
              exact h.candidate_of_mem_children hchild (by assumption)
            · cases hx
          · split at hx
            · exact resolveLocallyWith_candidate h cls fuel child _ x hx
            · cases hx
        · cases hx
      · cases hx

theorem resolveLocally_candidate (h : t.Linked) {cls : SymbolClass} {scope : Nat}
    {names : List String} {x : Nat} (hx : x ∈ t.resolveLocally cls scope names) :
    t.Candidate cls x :=
  resolveLocallyWith_candidate h cls _ scope names x hx

theorem membersWith_candidate (h : t.Linked) :
    ∀ (fuel scope x : Nat), x ∈ t.membersWith fuel scope → t.Candidate .any x
  | 0, _, _, hx => by simp [membersWith] at hx
  | fuel + 1, scope, x, hx => by
    simp only [membersWith, List.mem_flatMap] at hx
    obtain ⟨child, hchild, hx⟩ := hx
    rw [Array.mem_toList_iff] at hchild
    split at hx
    · exact membersWith_candidate h fuel child x hx
    · rw [List.mem_singleton] at hx
      subst hx
      exact h.candidate_of_mem_children hchild rfl

/-- The source of every binding an import makes is a stored symbol other than the root. -/
theorem evaluate_source (h : t.Linked) {rule : ImportRule} {b : Binding}
    (hb : b ∈ t.evaluate rule) : b.source ≠ 0 ∧ b.source < t.size := by
  cases rule with
  | single path localName =>
    simp only [evaluate, List.mem_map] at hb
    obtain ⟨source, hsource, rfl⟩ := hb
    exact (resolveLocally_candidate h hsource).imp_right And.left
  | wildcard path rule =>
    simp only [evaluate, List.mem_filterMap, List.mem_flatMap] at hb
    obtain ⟨m, ⟨scope, _, hm⟩, hsel⟩ := hb
    split at hsel
    · cases hsel
      exact (membersWith_candidate h _ scope m hm).imp_right And.left
    · cases hsel
  | rootPackages =>
    simp only [evaluate, List.mem_filterMap] at hb
    obtain ⟨id, hid, hsel⟩ := hb
    rw [Array.mem_toList_iff] at hid
    split at hsel
    · cases hsel
      exact ⟨h.ne_root_of_mem_children hid, h.lt_of_mem_children hid⟩
    · cases hsel

theorem resolveImported_candidate (h : t.Linked) {cls : SymbolClass} {scope : Nat}
    {names : List String} {x : Nat} (hx : x ∈ t.resolveImported cls scope names) :
    t.Candidate cls x := by
  simp only [resolveImported, List.mem_flatMap] at hx
  obtain ⟨b, hb, hx⟩ := hx
  simp only [bindings, List.mem_filter, List.mem_flatMap] at hb
  obtain ⟨⟨rule, _, hrule⟩, _⟩ := hb
  have hsource := evaluate_source h hrule
  -- the binding names the symbol itself, or a scope to look in
  split at hx
  · split at hx
    · split at hx
      · rw [List.mem_singleton] at hx
        subst hx
        exact ⟨hsource.1, hsource.2, by assumption⟩
      · cases hx
    · exact resolveLocally_candidate h hx
  · cases hx

theorem resolveFrom_candidate (h : t.Linked) (cls : SymbolClass) :
    ∀ (fuel scope : Nat) (names : List String) (x : Nat),
      x ∈ t.resolveFrom cls fuel scope names → t.Candidate cls x
  | 0, _, _, _, hx => by simp [resolveFrom] at hx
  | fuel + 1, scope, names, x, hx => by
    unfold resolveFrom at hx
    split at hx
    · cases hx
    · simp only [List.mem_append] at hx
      rcases hx with (hx | hx) | hx
      · exact resolveLocally_candidate h hx
      · exact resolveImported_candidate h hx
      · -- the container's candidates
        split at hx
        · split at hx
          · exact resolveFrom_candidate h cls fuel _ names x hx
          · cases hx
        · cases hx

theorem mem_of_mem_dedupKeepFirst {xs : List Nat} {x : Nat} (hx : x ∈ dedupKeepFirst xs) :
    x ∈ xs := by
  unfold dedupKeepFirst at hx
  rw [List.mem_reverse] at hx
  -- what the fold keeps was kept before or comes from the list
  suffices ∀ (ys : List Nat) (acc : List Nat × List Nat),
      x ∈ (ys.foldl (fun acc y =>
        if acc.1.contains y then acc else (y :: acc.1, y :: acc.2)) acc).2 →
        x ∈ acc.2 ∨ x ∈ ys by
    simpa using this xs ([], []) hx
  intro ys
  induction ys with
  | nil => exact fun acc hacc => .inl hacc
  | cons y ys ih =>
    intro acc hacc
    obtain ⟨seen, out⟩ := acc
    rw [List.foldl_cons] at hacc
    rcases ih _ hacc with hin | hin
    · dsimp only at hin
      by_cases hc : seen.contains y = true
      · rw [if_pos hc] at hin
        exact .inl hin
      · rw [if_neg hc] at hin
        rcases List.mem_cons.1 hin with rfl | hin
        · exact .inr List.mem_cons_self
        · exact .inl hin
    · exact .inr (.tail _ hin)

theorem resolve_candidate (h : t.Linked) {cls : SymbolClass} {scope : Nat}
    {names : List String} {x : Nat} (hx : x ∈ t.resolve cls scope names) :
    t.Candidate cls x :=
  resolveFrom_candidate h cls _ scope names x (mem_of_mem_dedupKeepFirst hx)

end SymbolTree

open SymbolTree

theorem NameRef.candidate_of_mem_resolve {t : SymbolTree} (h : t.Linked) (r : NameRef)
    {cls : SymbolClass} {x : Nat} (hx : x ∈ r.resolve t cls) : t.Candidate cls x := by
  unfold NameRef.resolve at hx
  -- the name is looked up from its scope or its scope's container, when there is one
  cases hs : (if r.within then some r.scope else (t.symbols[r.scope]?).bind (·.parent)) with
  | none => simp [hs] at hx
  | some scope =>
    simp only [hs] at hx
    exact resolve_candidate h hx

/-- A type name resolves only to types the walk over types visits. -/
theorem TypeRef.mem_walk_of_mem_resolve {t : SymbolTree} (h : t.Shaped) (r : TypeRef) {x : Nat}
    (hx : x ∈ r.resolve t) : x ∈ t.walk .type := by
  obtain ⟨h0, hlt, hacc⟩ := r.name.candidate_of_mem_resolve h.toLinked hx
  exact h.isTree.mem_walk.2 ⟨h0, hlt, hacc⟩

end Lineage
