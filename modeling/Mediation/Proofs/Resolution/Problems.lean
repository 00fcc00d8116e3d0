import Mediation.Proofs.Collection.Setback
import Mediation.Proofs.Resolution.Lasting

/-! # Problems

The problems of a resolution are the failures of its nodes, one for each, in the order in which
the nodes failed. A failure that aborts the resolution is no problem of it: what is tolerated is
optional, or further down than the direct dependencies of a resolution that is not strict.
-/

namespace Mediation

namespace Collection

variable {rules : Rules} {ev : Evidence} {s t : Collection} {ids : List NodeId} {i x : ℕ}

/-- Whether the problems of a collection are the failures of some nodes, which are all that have
failed, and none of which aborts the resolution. -/
structure Records (rules : Rules) (s : Collection) (ids : List NodeId) : Prop where
  nodup : ids.Nodup
  mem_iff : ∀ j : ℕ, j ∈ ids ↔ s.graph.IsFailed j
  trails : s.problems.map (·.artifact.trail) = ids.map fun j => (s.node j).artifact.trail
  tolerated : ∀ j ∈ ids, j ≠ Graph.root ∧ s.isFatal rules j = false

namespace Records

variable (h : s.Records rules ids)
include h

theorem trails_of_extends (he : s.Extends t) :
    (ids.map fun j => (t.node j).artifact.trail) = s.problems.map (·.artifact.trail) := by
  rw [h.trails]
  exact List.map_congr_left fun j hj => he.trail ((h.mem_iff j).mp hj).1

theorem isFatal_of_extends (he : s.Extends t) :
    ∀ j ∈ ids, j ≠ Graph.root ∧ t.isFatal rules j = false := by
  intro j hj
  rw [isFatal_of_site (he.site j ((h.mem_iff j).mp hj).1)]
  exact h.tolerated j hj

theorem spares (hs : Spares s t) (he : s.Extends t) : t.Records rules ids where
  nodup := h.nodup
  mem_iff j := (h.mem_iff j).trans (hs.failed j).symm
  trails := by rw [hs.problems, h.trails_of_extends he]
  tolerated := h.isFatal_of_extends he

theorem fails (hs : Fails i s t) (he : s.Extends t) (hi : i < s.graph.size)
    (hr : i ≠ Graph.root) (hn : ¬ s.graph.IsFailed i) (hf : s.isFatal rules i = false) :
    t.Records rules (ids ++ [i]) where
  nodup := by
    have hi : i ∉ ids := fun hi => hn ((h.mem_iff i).mp hi)
    rw [← List.concat_eq_append]
    exact h.nodup.concat hi
  mem_iff j := by rw [List.mem_append, List.mem_singleton, hs.failed, h.mem_iff]
  trails := by
    obtain ⟨p, hp, hpi⟩ := hs.problems
    rw [hp, List.map_append, List.map_append, h.trails_of_extends he, List.map_singleton,
      List.map_singleton, hpi, he.trail hi]
  tolerated j hj := by
    rcases List.mem_append.mp hj with hj | hj
    · exact h.isFatal_of_extends he j hj
    · obtain rfl := List.mem_singleton.mp hj
      exact ⟨hr, (isFatal_of_site (he.site j hi) rules).trans hf⟩

/-- What is tolerated is optional, or no direct dependency while the rules are not strict. -/
theorem optional_or_deep (hs : s.Sound) (hi : s.graph.IsFailed i) :
    (s.node i).artifact.optional = true ∨ 2 ≤ (s.node i).depth ∧ rules.strict = false := by
  obtain ⟨hr, hf⟩ := h.tolerated i ((h.mem_iff i).mpr hi)
  have hzero : (s.node i).depth ≠ 0 := (hs.tree.depth_eq_zero_iff hi.1).not.mpr hr
  simp only [isFatal, Bool.and_eq_false_iff, Bool.not_eq_false', Bool.or_eq_false_iff,
    decide_eq_false_iff_not] at hf
  rcases hf with hopt | ⟨hone, hstrict⟩
  · exact .inl hopt
  · exact .inr ⟨by omega, hstrict⟩

end Records

theorem Records.move {a b : Situation} (h : a.1.Records rules ids) (m : Move rules ev x a b)
    (hs : Steady a) : ∃ ids', b.1.Records rules ids' := by
  have he := Extends.of_tells m.tells
  cases m.suffers hs with
  | spared hm => exact ⟨ids, h.spares hm he⟩
  | @failed i hi hn hf hm =>
    exact ⟨ids ++ [i], h.fails hm he (hs.sound.lt_size_of_contender hi)
      (hs.sound.ne_root_of_contender hi) hn hf⟩

end Collection

namespace Resolver

open Run Collection

variable {σ : Type} {resolver : Resolver σ} {q : Request} {st : σ} {a z : Point σ} {i : ℕ}

theorem lasts_recorded : resolver.Lasts q st fun s =>
    ∃ ids, s.Records (resolver.session q).rules ids where
  start := by
    refine ⟨[], List.nodup_nil, fun j => ?_, rfl, nofun⟩
    refine iff_of_false List.not_mem_nil fun ⟨hj, hf⟩ => ?_
    obtain rfl : j = Graph.root := Nat.lt_one_iff.mp hj
    cases hf
  clear := fun ⟨ids, h⟩ => ⟨ids, h.nodup, h.mem_iff, h.trails, h.tolerated⟩
  move m hs := fun ⟨ids, h⟩ => h.move m hs
  expand {s x d} hs := fun ⟨ids, h⟩ hx _ => by
    have hsize : x < s.graph.size := Graph.lt_size_of_isIncluded (isIncluded_iff.mpr hx)
    exact ⟨ids, h.spares (spares_expand hsize d) (.expand _ hsize d)⟩

theorem isFailed_of_leads (h : resolver.Reaches q st a.1 a.2)
    (hl : Leads (resolver.session q) a z) (hi : a.collection.graph.IsFailed i) :
    z.collection.graph.IsFailed i := by
  refine leads_induct (P := fun z => z.collection.graph.IsFailed i) h hi
    (fun b c hb _ hbc hf => ?_) hl
  cases hbc with
  | rests hc => exact hc ▸ hf
  | clears hc => exact hc ▸ hf
  | moves hm =>
    exact hm.preserve_of_steady (P := fun b => b.1.graph.IsFailed i) (steady_of_reaches hb)
      (fun _ _ m hs hf => (m.suffers hs).isFailed hf) hf
  | expands _ hd hc => exact hc ▸ ((spares_expand hd.lt_size _).failed i).mpr hf

/-- Failures are neither lost nor doubled, and none is tolerated that should not be: every problem
of a resolution is that of one failed node, a failed node stays one from wherever the resolution
gets to its end, and it is optional, or no direct dependency while the resolution is not strict. -/
theorem failures_are_recorded {fuel : ℕ} {res : Resolution}
    (h : (resolver.resolve fuel q st).1 = .ok (some res)) :
    (∃ ids : List NodeId, ids.Nodup ∧ (∀ i, i ∈ ids ↔ res.graph.IsFailed i) ∧
      res.problems.map (·.artifact.trail) =
        ids.map fun i => (res.graph.node i).artifact.trail) ∧
    (∀ a, resolver.Reaches q st a.1 a.2 → ∀ i, a.collection.graph.IsFailed i →
      (∀ z, Leads (resolver.session q) a z → z.collection.graph.IsFailed i) ∧
        res.graph.IsFailed i) ∧
    ∀ i, res.graph.IsFailed i → (res.graph.node i).artifact.optional = true ∨
      2 ≤ (res.graph.node i).depth ∧ resolver.config.strict = false := by
  obtain ⟨hres, -, hr⟩ := reaches_of_resolve h
  obtain ⟨ids, hids⟩ := lasts_recorded.reaches hr
  have hs := (steady_of_reaches hr).sound
  subst hres
  exact ⟨⟨ids, hids.nodup, hids.mem_iff, hids.trails⟩,
    fun a ha i hi => ⟨fun z hl => isFailed_of_leads ha hl hi,
      isFailed_of_leads ha (leads_of_resolve h ha) hi⟩,
    fun i hi => hids.optional_or_deep hs hi⟩

def broken : Catalog := shelf [("a", "1", [("c", "1")])]

/-- A request for that library, and for another one that is not there, which is optional. -/
def hoping : Request :=
  .anonymous (wanted [("a", "1")] ++
    [{ Dependency.plain (library "b") (.soft ⟨"1"⟩) with optional := true }]) .empty

/-- Both failures are problems, one of what is optional, and one of what is further down. -/
theorem failures_are_recorded_of_broken :
    ∃ (res : Resolution) (ids : List NodeId),
      ((ofPolicy .nearest).resolve 5 hoping broken).1 = .ok (some res) ∧
      res.problems.length = 2 ∧ ids.Nodup ∧ 2 ∈ ids ∧ 3 ∈ ids ∧
      res.problems.map (·.artifact.trail) =
        ids.map (fun i => (res.graph.node i).artifact.trail) ∧
      (res.graph.node 2).artifact.optional = true ∧
      (res.graph.node 3).artifact.optional = false ∧ 2 ≤ (res.graph.node 3).depth := by
  obtain ⟨res, h⟩ := finishes_iff.mp
    (show (ofPolicy .nearest).finishes 5 hoping broken = true by decide +kernel)
  obtain ⟨hres, -, -⟩ := reaches_of_resolve h
  have hp : res.problems.length = 2 := by
    rw [hres]
    decide +kernel
  have htwo : res.graph.IsFailed 2 ∧ (res.graph.node 2).artifact.optional = true := by
    rw [hres]
    decide +kernel
  have hthree : res.graph.IsFailed 3 ∧ (res.graph.node 3).artifact.optional = false := by
    rw [hres]
    decide +kernel
  obtain ⟨⟨ids, hnodup, hmem, htrails⟩, -, htolerated⟩ := failures_are_recorded h
  have hdeep := (htolerated 3 hthree.1).resolve_left (by rw [hthree.2]; decide)
  exact ⟨res, ids, h, hp, hnodup, (hmem 2).mpr htwo.1, (hmem 3).mpr hthree.1, htrails, htwo.2,
    hthree.2, hdeep.1⟩

end Resolver

end Mediation
