import Mathlib.Data.List.Perm.Subperm
import Mediation.Proofs.Resolution.Terms
import Mediation.Proofs.Resolution.Winners

/-! # The nearest winner and the end of a resolution

A trail that closes no cycle holds every coordinate once, so a node has fewer levels below it
the deeper it is. The nearest of two candidates is never the deeper one, and so a winner is
displaced only by a newcomer that may have as much below it. A finite source without moving
targets is thus resolved in finitely many rounds.
-/

namespace Mediation

namespace Site

/-- Whether the trail of a site holds coordinates of a list, each of them once. -/
structure OnTrail (cs : List Coordinate) (σ : Site) : Prop where
  nodup : σ.trail.Nodup
  subset : ∀ c ∈ σ.trail, c ∈ cs
  length : σ.trail.length = σ.depth + 1

variable {cs : List Coordinate} {σ : Site} {c : Child}

theorem OnTrail.below (h : σ.OnTrail cs) (hc : c.coordinate ∈ cs) (hn : c.coordinate ∉ σ.trail)
    (i p : NodeId) : (σ.below i p c).OnTrail cs where
  nodup := by
    refine List.nodup_append.mpr ⟨h.nodup, List.nodup_singleton _, fun a ha b hb => ?_⟩
    obtain rfl := List.mem_singleton.mp hb
    exact fun he => hn (he ▸ ha)
  subset a ha := by
    rcases List.mem_append.mp ha with ha | ha
    · exact h.subset a ha
    · exact List.mem_singleton.mp ha ▸ hc
  length := by
    simp only [Site.below, List.length_append, List.length_singleton, h.length]

theorem OnTrail.depth_lt (h : σ.OnTrail cs) : σ.depth < cs.length := by
  have hle : σ.trail.length ≤ cs.length := (h.nodup.subperm fun c hc => h.subset c hc).length_le
  rw [h.length] at hle
  exact hle

end Site

namespace Resolver

variable {σ : Type} {resolver : Resolver σ} {q : Request} {st : σ} {inv : Inventory}

def steps (q : Request) (inv : Inventory) : List Coordinate := q.root :: inv.coordinates

theorem mem_steps_of_brings {fits : Site → Prop} {soft : Prop} {rank : Site → ℕ} {d : Descriptor}
    {e : Dependency} {x : Child} (hd : d ∈ inv.descriptors) (he : e ∈ d.dependencies)
    (hx : (inv.tariff fits soft rank).Brings e x) : x.coordinate ∈ steps q inv :=
  List.mem_cons_of_mem _ (List.mem_flatMap.mpr ⟨d, hd, List.mem_map.mpr ⟨e, he, hx.1.symm⟩⟩)

/-- The terms for the nearest winner: nodes have a rank by the room left on their trails. -/
def nearestTariff (q : Request) (inv : Inventory) : Tariff :=
  inv.tariff (Site.OnTrail (steps q inv)) False fun σ => (steps q inv).length - σ.depth

theorem nearest_allows {d : Descriptor} {site : Site} (hc : inv.IsConcrete)
    (hd : d ∈ inv.descriptors) (hs : site.OnTrail (steps q inv)) :
    (nearestTariff q inv).Allows site d := by
  refine Inventory.allows hc hd False.elim fun e he x hx hn i p => ?_
  have hb := hs.below (mem_steps_of_brings hd he hx) hn i p
  refine ⟨hb, ?_⟩
  have hlt : site.depth + 1 < (steps q inv).length := hb.depth_lt
  change (steps q inv).length - (site.depth + 1) < (steps q inv).length - site.depth
  omega

theorem nearest_covers (ha : resolver.arbiter = Policy.nearest.arbiter)
    (h : inv.Holds resolver.source st q.descriptor) (hc : inv.IsConcrete) :
    resolver.Covers q st (nearestTariff q inv) where
  governs := inv.governs h
  favours {s} hs _ := by
    rintro i x hr hlt hp - he
    have hx := hs.lt_size_of_contender (Collection.Steady.pending_contender hs hp)
    have hd : (s.node x).depth < (s.node i).depth := by
      simpa [Policy.prefers] using Collection.prefers_of_elect hs ha hlt hx he
    exact Nat.sub_le_sub_left hd.le _
  allows ht hx _ hd := nearest_allows hc (h.told hd) (ht.node _ hx).fits
  root := by
    refine nearest_allows hc h.root ⟨List.nodup_singleton _, fun c hm => ?_, rfl⟩
    exact List.mem_singleton.mp hm ▸ List.mem_cons_self ..

/-- Under the nearest winner every request to a finite source comes to an end, whatever mixture
of recommendations, ranges and failures occurs, if nothing recommends a moving target. -/
theorem ends_of_nearest (ha : resolver.arbiter = Policy.nearest.arbiter)
    (hf : resolver.source.IsFinite st)
    (hq : ∀ c ∈ q.descriptor.constraints, c.isConcrete = true)
    (hd : ∀ a v d, resolver.source.Describes st a v d →
      ∀ c ∈ d.constraints, c.isConcrete = true) : resolver.Ends q st := by
  obtain ⟨inv, hold, honly⟩ := Inventory.exists_of_isFinite hf q.descriptor
  refine (nearest_covers ha hold fun d hm c hc => ?_).ends
  rcases honly d hm with rfl | ⟨a, v, ht⟩
  · exact hq c hc
  · exact hd a v d ht c hc

/-- Two versions of one library with different dependencies, and a library that insists on the
older one. -/
def narrowed : Catalog :=
  (shelf [("b", "1", [("d", "1")]), ("b", "2", [("c", "1")]), ("c", "1", []), ("d", "1", [])]).add
    (library "a").key ⟨"1"⟩ ⟨[.plain (library "b") (.exact ⟨"1"⟩)], .empty⟩

def narrowing : Request :=
  .anonymous [.plain (library "b") ⟨none, [⟨some ⟨⟨"1"⟩, true⟩, some ⟨⟨"2"⟩, true⟩⟩]⟩,
    .plain (library "a") (.soft ⟨"1"⟩)] .empty

theorem ends_of_narrowed :
    (∀ c ∈ narrowing.descriptor.constraints, c.isConcrete = true) ∧
      (∀ a v d, (Catalog.source 0).Describes narrowed a v d →
        ∀ c ∈ d.constraints, c.isConcrete = true) ∧
      (ofPolicy .nearest).Ends narrowing narrowed := by
  have hq : ∀ c ∈ narrowing.descriptor.constraints, c.isConcrete = true := by decide +kernel
  have hall : ∀ d ∈ (narrowed.inventory narrowing.descriptor).descriptors,
      ∀ c ∈ d.constraints, c.isConcrete = true := by decide +kernel
  have hd : ∀ a v d, (Catalog.source 0).Describes narrowed a v d →
      ∀ c ∈ d.constraints, c.isConcrete = true :=
    fun a v d h => hall d ((narrowed.inventory_holds narrowing.descriptor).told h)
  exact ⟨hq, hd, ends_of_nearest rfl narrowed.isFinite hq hd⟩

end Resolver

end Mediation
