import Mediation.Proofs.Graph.Descent

/-! # Sites

A node keeps its site from its creation on. So a graph stays a tree as long as its
nodes get no other children than new ones, which are attached at the end.
-/

namespace Mediation

structure Site where
  id : NodeId
  coordinate : Coordinate
  trail : Trail
  optional : Bool
  depth : Nat
  parent : Option NodeId
  constraint : Constraint
  scope : Scope
  exclusions : List Exclusion

namespace Node

def site (n : Node) : Site :=
  ⟨n.id, n.artifact.coordinate, n.artifact.trail, n.artifact.optional, n.depth, n.parent,
    n.declaredConstraint, n.declaredScope, n.exclusions⟩

/-- A node without its scope and the note about its winner. -/
def core (n : Node) : Node :=
  { n with kept := none, artifact := { n.artifact with scope := .compile } }

theorem site_of_core {m n : Node} (h : m.core = n.core) : m.site = n.site :=
  (congrArg site h :)

theorem state_of_core {m n : Node} (h : m.core = n.core) : m.state = n.state :=
  (congrArg state h :)

theorem key_of_site {m n : Node} (h : m.site = n.site) : m.key = n.key :=
  congrArg (fun s : Site => s.coordinate.key) h

theorem parent_of_site {m n : Node} (h : m.site = n.site) : m.parent = n.parent :=
  congrArg Site.parent h

theorem declaredScope_of_site {m n : Node} (h : m.site = n.site) :
    m.declaredScope = n.declaredScope := congrArg Site.scope h

theorem declaredConstraint_of_site {m n : Node} (h : m.site = n.site) :
    m.declaredConstraint = n.declaredConstraint := congrArg Site.constraint h

theorem exclusions_of_site {m n : Node} (h : m.site = n.site) : m.exclusions = n.exclusions :=
  congrArg Site.exclusions h

theorem depth_of_site {m n : Node} (h : m.site = n.site) : m.depth = n.depth :=
  congrArg Site.depth h

end Node

namespace Graph

variable {g h : Graph}

theorem descendantsUpTo_congr (hc : ∀ i, h.children i = g.children i) (n : ℕ) (i : NodeId) :
    h.descendantsUpTo n i = g.descendantsUpTo n i := by
  induction n generalizing i with
  | zero => rfl
  | succ n ih => simp only [descendantsUpTo, hc, ih]

theorem descendants_congr (hs : h.size = g.size) (hc : ∀ i, h.children i = g.children i)
    (i : NodeId) : h.descendants i = g.descendants i := by
  rw [descendants, descendants, hs, descendantsUpTo_congr hc]

/-- Changed nodes form a tree again if they keep their sites and get no new children. -/
theorem IsTree.of_sites (t : g.IsTree) (hs : h.size = g.size)
    (hn : ∀ i, (h.node i).site = (g.node i).site)
    (hc : ∀ i, (h.children i).Sublist (g.children i)) : h.IsTree := by
  have hp (i) : (h.node i).parent = (g.node i).parent := Node.parent_of_site (hn i)
  have hd (i) : (h.node i).depth = (g.node i).depth := congrArg Site.depth (hn i)
  have ht (i) : (h.node i).artifact.trail = (g.node i).artifact.trail :=
    congrArg Site.trail (hn i)
  have ho (i) : (h.node i).artifact.coordinate = (g.node i).artifact.coordinate :=
    congrArg Site.coordinate (hn i)
  exact {
    size_pos := hs ▸ t.size_pos
    id_eq i hi := (congrArg Site.id (hn i) : _).trans (t.id_eq i (hs ▸ hi))
    parent_root := by rw [hp, t.parent_root]
    depth_root := by rw [hd, t.depth_root]
    trail_root := by rw [ht, ho, t.trail_root]
    parent_lt i hi hr := by
      rw [hp]
      exact t.parent_lt i (hs ▸ hi) hr
    depth_eq i p := by
      rw [hp, hd, hd]
      exact t.depth_eq i p
    trail_eq i p := by
      rw [hp, ht, ht, ho]
      exact t.trail_eq i p
    child p c h' := by
      rw [hp, hs]
      exact t.child p c ((hc p).subset h')
    children_nodup := fun p => (t.children_nodup p).sublist (hc p) }

/-- A changed node leaves a tree a tree if it keeps its site and gets no children. -/
theorem IsTree.update (t : g.IsTree) (i : NodeId) {f : Node → Node}
    (hf : ∀ n, (f n).site = n.site) (hc : ∀ n, (f n).children.Sublist n.children) :
    (g.update i f).IsTree := by
  refine t.of_sites (size_update g i f) (fun j => ?_) fun j => ?_
  · rw [node_update]
    split
    · exact hf _
    · rfl
  · rw [children_eq, children_eq, node_update]
    split
    · exact hc _
    · exact .refl _

section Attach

variable {i p : ℕ}

theorem node_attach (h : p < g.size) (c : Child) (i : ℕ) : (g.attach p c).node i =
    if i = p then { g.node p with children := g.children p ++ [g.size] }
    else if i = g.size then g.childNode p c else g.node i := by
  split
  · rename_i hi
    rw [hi, node_attach_self h]
  · split
    · rename_i hi
      rw [hi, node_attach_size h]
    · rename_i hp hi
      exact node_attach_of_ne hp hi c

theorem site_attach (h : p < g.size) (c : Child) (hi : i ≠ g.size) :
    ((g.attach p c).node i).site = (g.node i).site := by
  rw [node_attach h]
  split
  · rename_i hip
    rw [hip]; rfl
  · rfl

theorem children_attach (h : p < g.size) (c : Child) (i : ℕ) : (g.attach p c).children i =
    if i = p then g.children p ++ [g.size] else if i = g.size then [] else g.children i := by
  rw [children_eq, node_attach h]
  split
  · rfl
  · split
    · rfl
    · exact (children_eq g i).symm

theorem IsTree.attach (t : g.IsTree) (h : p < g.size) (c : Child) : (g.attach p c).IsTree := by
  have hr : root ≠ g.size := Nat.ne_of_lt t.size_pos
  have hs {i : ℕ} (hi : i ≠ g.size) := site_attach (i := i) h c hi
  have hself : (g.attach p c).node g.size = g.childNode p c := node_attach_size h c
  exact {
    size_pos := by
      rw [size_attach]
      exact Nat.succ_pos _
    id_eq i hi := by
      rw [size_attach] at hi
      by_cases his : i = g.size
      · rw [his, hself]; rfl
      · exact (congrArg Site.id (hs his) : _).trans (t.id_eq i (by omega))
    parent_root := (Node.parent_of_site (hs hr)).trans t.parent_root
    depth_root := (congrArg Site.depth (hs hr) : _).trans t.depth_root
    trail_root := by
      have h1 := (congrArg Site.trail (hs hr) : _)
      have h2 := (congrArg Site.coordinate (hs hr) : _)
      exact (h1.trans t.trail_root).trans (congrArg (fun c => [c]) h2.symm)
    parent_lt i hi hir := by
      rw [size_attach] at hi
      by_cases his : i = g.size
      · exact ⟨p, his ▸ h, by rw [his, hself]; rfl⟩
      · rw [Node.parent_of_site (hs his)]
        exact t.parent_lt i (by omega) hir
    depth_eq i q hq := by
      by_cases his : i = g.size
      · subst his
        rw [hself] at hq ⊢
        obtain rfl : p = q := Option.some.inj hq
        exact congrArg (· + 1) (congrArg Site.depth (hs h.ne)).symm
      · rw [Node.parent_of_site (hs his)] at hq
        have hqs : q ≠ g.size := ((t.lt_of_parent hq).trans (lt_size_of_parent hq)).ne
        have h1 := (congrArg Site.depth (hs his) : _)
        have h2 := (congrArg Site.depth (hs hqs) : _)
        exact (h1.trans (t.depth_eq i q hq)).trans (congrArg (· + 1) h2.symm)
    trail_eq i q hq := by
      by_cases his : i = g.size
      · subst his
        rw [hself] at hq ⊢
        obtain rfl : p = q := Option.some.inj hq
        exact congrArg (· ++ [c.coordinate]) (congrArg Site.trail (hs h.ne)).symm
      · rw [Node.parent_of_site (hs his)] at hq
        have hqs : q ≠ g.size := ((t.lt_of_parent hq).trans (lt_size_of_parent hq)).ne
        have h1 := (congrArg Site.trail (hs his) : _)
        have h2 := (congrArg Site.trail (hs hqs) : _)
        have h3 := (congrArg Site.coordinate (hs his) : _)
        refine (h1.trans (t.trail_eq i q hq)).trans ?_
        exact congrArg₂ (fun a b => a ++ [b]) h2.symm h3.symm
    child q d hd := by
      rw [children_attach h] at hd
      rw [size_attach]
      split at hd
      · rename_i hq
        obtain hd | hd := List.mem_append.mp hd
        · obtain ⟨hlt, hpar⟩ := t.child p d hd
          exact ⟨Nat.lt_succ_of_lt hlt,
            (Node.parent_of_site (hs hlt.ne)).trans (hq ▸ hpar)⟩
        · obtain rfl := List.mem_singleton.mp hd
          exact ⟨Nat.lt_succ_self _, by rw [hself, hq]; rfl⟩
      · split at hd
        · cases hd
        · obtain ⟨hlt, hpar⟩ := t.child q d hd
          exact ⟨Nat.lt_succ_of_lt hlt, (Node.parent_of_site (hs hlt.ne)).trans hpar⟩
    children_nodup q := by
      rw [children_attach h]
      split
      · refine List.Nodup.append (t.children_nodup p) (List.nodup_singleton _) ?_
        intro d hd hm
        obtain rfl := List.mem_singleton.mp hm
        exact absurd (t.child p _ hd).1 (lt_irrefl _)
      · split
        · exact List.nodup_nil
        · exact t.children_nodup q }

end Attach

end Graph

end Mediation
