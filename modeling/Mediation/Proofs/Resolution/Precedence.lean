import Mediation.Proofs.Digraph.Components
import Mediation.Proofs.Resolution.Winners

/-! # Precedence

When a run ends, the build order lists every included node once and puts each behind
those it depends on. Only nodes that depend on each other cannot be told apart so; they
stand together in the order of discovery. This takes no more than that components are what they
should be, so it holds of every search for them.
-/

namespace Mediation

namespace Graph

open Relation

variable {g : Graph} {a b : NodeId} {k : Key} {search : Digraph → List (List ℕ)}

@[simp] theorem vertices_dependencyGraph : g.dependencyGraph.vertices = g.included :=
  Digraph.vertices_map

/-- Whether an included node has a child that did not fail and shares its identity with an
included node. -/
def Needs (g : Graph) (a b : NodeId) : Prop :=
  a ∈ g.included ∧ b ∈ g.included ∧
    ∃ c ∈ g.children a, (g.node c).state ≠ .failed ∧ (g.node c).key = (g.node b).key

def DependsOn (g : Graph) : NodeId → NodeId → Prop := ReflTransGen g.Needs

def orderBy (search : Digraph → List (List ℕ)) (g : Graph) : List NodeId :=
  ((search g.dependencyGraph).map (·.mergeSort (· ≤ ·))).flatten

/-- Whether a list rearranges the included nodes so that what a node needs comes before it, unless
the two depend on each other, and those that do so stand together in the order of discovery. -/
structure IsBuildOrder (g : Graph) (order : List NodeId) : Prop where
  perm : order.Perm g.included
  precedes : ∀ a b, g.Needs a b → ¬ g.DependsOn b a → order.idxOf b < order.idxOf a
  parts : ∃ parts : List (List NodeId), order = parts.flatten ∧
    ∀ part ∈ parts, part.Pairwise (· < ·) ∧
      ∀ a ∈ part, ∀ b, b ∈ part ↔ g.DependsOn a b ∧ g.DependsOn b a

/-- Every node is listed once as included, and no two included nodes share an identity. -/
structure IsSettled (g : Graph) : Prop where
  nodup : g.included.Nodup
  unique : ∀ a ∈ g.included, ∀ b ∈ g.included, (g.node a).key = (g.node b).key → a = b

namespace IsSettled

variable (h : g.IsSettled)
include h

theorem holder?_eq_some_iff :
    g.holder? g.included k = some b ↔ b ∈ g.included ∧ (g.node b).key = k := by
  constructor
  · intro hb
    exact ⟨List.mem_of_find?_eq_some hb, by simpa using List.find?_some hb⟩
  · rintro ⟨hb, rfl⟩
    cases hf : g.holder? g.included (g.node b).key with
    | none => exact absurd (List.find?_eq_none.mp hf b hb) (by simp)
    | some c =>
      have hk : (g.node c).key = (g.node b).key := by simpa using List.find?_some hf
      rw [h.unique c (List.mem_of_find?_eq_some hf) b hb hk]

theorem mem_dependencies_iff (ha : a ∈ g.included) :
    b ∈ g.dependencies g.included a ↔ g.Needs a b ∧ b ≠ a := by
  have hb (c : NodeId) : g.holder? g.included (g.node c).key = some b ↔
      b ∈ g.included ∧ (g.node c).key = (g.node b).key := by
    rw [h.holder?_eq_some_iff, eq_comm (a := (g.node c).key)]
  simp only [dependencies, List.mem_eraseDups, List.mem_filter, List.mem_filterMap, hb, Needs,
    bne_iff_ne, ha, true_and]
  grind

theorem mem_successors_iff :
    b ∈ g.dependencyGraph.successors a ↔ g.Needs a b ∧ b ≠ a := by
  by_cases ha : a ∈ g.included
  · rw [dependencyGraph, Digraph.successors_map ha, List.mem_reverse, h.mem_dependencies_iff ha]
  · have hn : g.dependencyGraph.successors a = [] :=
      Digraph.successors_eq_nil (by simpa using ha)
    simp [hn, Needs, ha]

theorem isClosed : g.dependencyGraph.IsClosed where
  nodup := by simpa using h.nodup
  successors a b hb := by simpa using (h.mem_successors_iff.mp hb).1.2.1

theorem leads_iff : g.dependencyGraph.Leads a b ↔ g.DependsOn a b := by
  constructor
  · exact ReflTransGen.mono (fun _ _ hb => (h.mem_successors_iff.mp hb).1) a b
  · intro hab
    induction hab with
    | refl => exact .refl a
    | @tail b c _ hbc ih =>
      by_cases he : c = b
      · exact he ▸ ih
      · exact ih.trans (.step (h.mem_successors_iff.mpr ⟨hbc, he⟩))

/-- Whatever finds the components of the dependency graph leads to a build order. -/
theorem isBuildOrder_orderBy
    (hsearch : g.dependencyGraph.IsComponents (search g.dependencyGraph)) :
    g.IsBuildOrder (g.orderBy search) where
  perm := by simpa [orderBy] using hsearch.map_mergeSort.perm
  precedes a b hab hba := by
    refine hsearch.map_mergeSort.idxOf_lt h.isClosed (by simpa using hab.1) ?_ ?_
    · exact h.leads_iff.mpr (.single hab)
    · rwa [h.leads_iff]
  parts := by
    refine ⟨_, rfl, fun part hpart => ⟨hsearch.sorted_of_mem h.isClosed hpart, ?_⟩⟩
    intro a ha b
    rw [hsearch.map_mergeSort.mem_iff part hpart a ha b, Digraph.Mutual, h.leads_iff, h.leads_iff]

theorem orderBy_components : g.orderBy Digraph.components = g.buildOrder := by
  have hsorted : ∀ part ∈ g.dependencyGraph.components, part.mergeSort (· ≤ ·) = part :=
    fun part hpart => List.mergeSort_eq_self (· ≤ ·)
      ((Digraph.sorted_of_mem_components h.isClosed hpart).imp le_of_lt)
  rw [orderBy, buildOrder, List.map_congr_left hsorted, List.map_id']

theorem isBuildOrder : g.IsBuildOrder g.buildOrder := by
  rw [← h.orderBy_components]
  exact h.isBuildOrder_orderBy (Digraph.isComponents_components h.isClosed)

end IsSettled

end Graph

namespace Resolver

open Run Collection

variable {σ : Type} {resolver : Resolver σ} {q : Request} {st : σ}

theorem isSettled_of_resolve {fuel : ℕ} {res : Resolution}
    (h : (resolver.resolve fuel q st).1 = .ok (some res)) : res.graph.IsSettled := by
  obtain ⟨hp, -, hg⟩ := poised_of_resolve h
  have hs := hp.steady.sound
  exact {
    nodup := hg ▸ hs.tree.nodup_visible.filter _
    unique a ha b hb hk := by
      rw [hg] at ha hb hk
      obtain ⟨har, hai⟩ := hs.mem_included_iff.mp ha
      obtain ⟨hbr, hbi⟩ := hs.mem_included_iff.mp hb
      exact hs.unique a b har hbr hai hbi hk }

/-- Two libraries that need each other, one that needs the first of them, and one on its own. -/
def knot : Catalog :=
  shelf [("a", "1", [("b", "1")]), ("b", "1", [("c", "1")]), ("c", "1", [("b", "1")]),
    ("d", "1", [])]

/-- A request for the library above the two and for the one on its own. -/
def tying : Request := .anonymous (wanted [("a", "1"), ("d", "1")]) .empty

end Resolver

end Mediation
