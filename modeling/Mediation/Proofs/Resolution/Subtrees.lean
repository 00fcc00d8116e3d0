import Mediation.Proofs.Graph.Search
import Mediation.Proofs.Resolution.Nearest
import Mediation.Proofs.Resolution.Trails

/-! # Subtrees

A node that is expanded once more gets new children, while those that it had before still have it
as their parent. All that is below it at some moment, and nothing else, is what a search through
the lists of children finds at that moment.
-/

namespace Mediation.Resolver

open Run Collection

variable {σ : Type} {resolver : Resolver σ} {q : Request} {st : σ} {g : Graph}

/-- Whether a graph may occur in a resolution: between its decisions, or while one of them is
carried out. A decision changes one node after another; each of them keeps its site and gets no
children. -/
inductive Shows (resolver : Resolver σ) (q : Request) (st : σ) : Graph → Prop
  | passes {s : Collection} (h : resolver.Passes q st s) : Shows resolver q st s.graph
  | changes {g : Graph} (i : NodeId) {f : Node → Node} (h : Shows resolver q st g)
      (hf : ∀ n, (f n).site = n.site) (hc : ∀ n, (f n).children.Sublist n.children) :
      Shows resolver q st (g.update i f)

theorem isTree_of_shows (h : resolver.Shows q st g) : g.IsTree := by
  induction h with
  | passes h => exact (recurrent_of_passes h).1
  | changes i _ hf hc ih => exact ih.update i hf hc

/-- At every moment of a resolution the descendants of a node are all that is below it, each node
once and behind its parent. -/
theorem descendants_are_subtree (h : resolver.Shows q st g) (i : NodeId) :
    g.IsSubtree i (g.descendants i) :=
  (isTree_of_shows h).isSubtree i

/-- A library that was moved to another version has lost the child that it had before, which keeps
it as its parent. -/
theorem descendants_are_subtree_of_narrowed :
    ∃ g, (ofPolicy .nearest).Shows narrowing narrowed g ∧
      g.descendants Graph.root = [1, 5, 2, 4] ∧
      (Graph.Search.turn g)^[4] (.start g Graph.root) = ⟨[1, 5, 2, 4], []⟩ ∧
      g.Below 1 5 ∧ Graph.root ∈ g.ancestors 5 ∧
      (g.node 3).parent = some 1 ∧ ¬ g.Below 1 3 := by
  obtain ⟨res, h⟩ := finishes_iff.mp
    (show (ofPolicy .nearest).finishes 5 narrowing narrowed = true by decide +kernel)
  obtain ⟨-, -, hr⟩ := reaches_of_resolve h
  have hfacts :
      ((ofPolicy .nearest).resolve 5 narrowing narrowed).2.collection.graph.descendants
        Graph.root = [1, 5, 2, 4] ∧
      ((ofPolicy .nearest).resolve 5 narrowing narrowed).2.collection.graph.descendants 1 = [5] ∧
      (((ofPolicy .nearest).resolve 5 narrowing narrowed).2.collection.graph.node 3).parent =
        some 1 := by
    decide +kernel
  generalize ((ofPolicy .nearest).resolve 5 narrowing narrowed).2 = r at hr hfacts
  obtain ⟨hroot, hone, hthree⟩ := hfacts
  have hpass : (ofPolicy .nearest).Passes narrowing narrowed r.collection :=
    .following (a := (.level [], r)) hr (.deciding (x := 0) .refl .refl)
  have hshows : (ofPolicy .nearest).Shows narrowing narrowed r.collection.graph := .passes hpass
  have htree := descendants_are_subtree hshows Graph.root
  have hbranch := descendants_are_subtree hshows 1
  rw [hroot] at htree
  rw [hone] at hbranch
  refine ⟨r.collection.graph, hshows, hroot, htree.search, (hbranch.mem_iff 5).mp (by simp),
    htree.ancestor 5 (by simp), hthree, fun hbelow => ?_⟩
  exact absurd ((hbranch.mem_iff 3).mpr hbelow) (by simp)

end Mediation.Resolver
