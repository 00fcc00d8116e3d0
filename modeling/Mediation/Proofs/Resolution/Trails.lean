import Mediation.Proofs.Collection.Recurrence
import Mediation.Proofs.Resolution.Lasting

/-! # Trails

Whatever happens in a resolution, every node stands below an older one whose trail it continues,
one level further down. Its coordinate recurs on that trail just if it closes a cycle. Then it
does so for the rest of the resolution, and nothing is below it; no other trail repeats a
coordinate.
-/

namespace Mediation

namespace Resolver

open Run Collection

variable {σ : Type} {resolver : Resolver σ} {q : Request} {st : σ} {a z : Point σ} {s : Collection}
  {i : ℕ}

/-- Whether a collection occurs in a resolution from a point of its run on: there or later, while a
node is decided on or expanded. -/
inductive Follows (resolver : Resolver σ) (q : Request) (st : σ) (a : Point σ) : Collection → Prop
  | deciding {z : Point σ} {x : NodeId} {b : Situation} (hl : Leads (resolver.session q) a z)
      (hm : Moves (resolver.session q).rules (told (resolver.session q) st) x
        (z.collection, []) b) : Follows resolver q st a b.1
  | expanding {z : Point σ} {x : NodeId} {d : Descriptor} {g : Growth}
      (hl : Leads (resolver.session q) a z) (hx : z.IsExpanding x d)
      (hg : Sprouts (resolver.session q).rules x (d.dependencies, [], z.collection.opened x d) g) :
      Follows resolver q st a g.2.2

/-- Whether a collection occurs in a resolution: while the root is expanded, or from a point of
the run on. -/
inductive Passes (resolver : Resolver σ) (q : Request) (st : σ) : Collection → Prop
  | starting {g : Growth}
      (hg : Sprouts (resolver.session q).rules Graph.root (q.descriptor.dependencies, [],
        (Collection.start q.root q.version q.management).opened Graph.root
          q.descriptor) g) : Passes resolver q st g.2.2
  | following {a : Point σ} {s : Collection} (ha : resolver.Reaches q st a.1 a.2)
      (hs : resolver.Follows q st a s) : Passes resolver q st s

theorem recurrent_start (root : Coordinate) (v : Version) (pins : Management) :
    (Collection.start root v pins).Recurrent := by
  have hnone (i p : ℕ) : ((Collection.start root v pins).node i).parent ≠ some p := by
    intro hp
    obtain rfl : i = Graph.root := Nat.lt_one_iff.mp (Graph.lt_size_of_parent hp)
    cases hp
  exact ⟨fun i p hp => absurd hp (hnone i p), fun i p hp => absurd hp (hnone i p)⟩

theorem lasts_recurrent : resolver.Lasts q st Recurrent where
  start := recurrent_start _ _ _
  clear h := ⟨h.cycle, h.parent⟩
  move m hs h := h.move m hs
  expand hs h hx _ := (h.sprouts hs.tree hx (sprouts_expand _ _ _ _)).2

/-- Wherever a resolution gets, also between its points, the trails tell where the nodes are. -/
theorem recurrent_of_passes (h : resolver.Passes q st s) : s.graph.IsTree ∧ s.Recurrent := by
  rcases h with hg | ⟨ha, ⟨hl, hm⟩ | ⟨hl, hx, hg⟩⟩
  · have hs := (steady_start q.root q.version q.management).sound
    exact (recurrent_start _ _ _).sprouts hs.tree hs.root_included hg
  · have hz := ha.leads hl
    have hs := steady_of_reaches hz
    exact ⟨(hm.preserve (fun _ _ m h => m.steady h) hs).sound.tree,
      lasts_recurrent.moves hm hs (lasts_recurrent.reaches hz)⟩
  · have hz := ha.leads hl
    exact (lasts_recurrent.reaches hz).sprouts (steady_of_reaches hz).sound.tree hx.2 hg

theorem sameCycles_of_moves {x : NodeId} {b : Situation} (h : resolver.Reaches q st a.1 a.2)
    (hm : Moves (resolver.session q).rules (told (resolver.session q) st) x (a.collection, []) b) :
    SameCycles a.collection b.1 :=
  hm.preserve_of_steady (P := fun b => SameCycles a.collection b.1) (steady_of_reaches h)
    (fun _ _ m hs hab => hab.trans (m.sameCycles hs)) fun _ => Iff.rfl

/-- No node that there is at some point closes a cycle later on unless it does so by then. -/
theorem cycle_iff_of_leads (h : resolver.Reaches q st a.1 a.2)
    (hl : Leads (resolver.session q) a z) (hi : i < a.collection.graph.size) :
    i < z.collection.graph.size ∧ ((z.collection.node i).state = .omittedForCycle ↔
      (a.collection.node i).state = .omittedForCycle) := by
  refine leads_induct (P := fun z => i < z.collection.graph.size ∧
    ((z.collection.node i).state = .omittedForCycle ↔
      (a.collection.node i).state = .omittedForCycle)) h ⟨hi, Iff.rfl⟩ ?_ hl
  rintro b c hb - hbc ⟨hib, ih⟩
  cases hbc with
  | rests hc => exact hc ▸ ⟨hib, ih⟩
  | clears hc => exact hc ▸ ⟨hib, ih⟩
  | moves hm => exact ⟨hib.trans_eq hm.tells.size.symm, (sameCycles_of_moves hb hm i).trans ih⟩
  | @expands x d _ hd hc =>
    rw [hc]
    refine ⟨hib.trans_le (size_le_expand hd.lt_size d), ?_⟩
    rw [state_expand hd.lt_size d hib]
    exact ih

theorem cycle_iff_of_follows (h : resolver.Reaches q st a.1 a.2) (hs : resolver.Follows q st a s)
    (hi : i < a.collection.graph.size) :
    (s.node i).state = .omittedForCycle ↔ (a.collection.node i).state = .omittedForCycle := by
  cases hs with
  | deciding hl hm =>
    obtain ⟨-, hz⟩ := cycle_iff_of_leads h hl hi
    exact (sameCycles_of_moves (h.leads hl) hm i).trans hz
  | expanding hl hx hg =>
    obtain ⟨hiz, hz⟩ := cycle_iff_of_leads h hl hi
    have hadds := adds_of_sprouts (Graph.lt_size_of_isIncluded (isIncluded_iff.mpr hx.2)) hg
    rw [hadds.view Node.state (fun _ _ => rfl) (hiz.trans_eq (size_opened _).symm),
      view_opened _ Node.state fun _ => rfl]
    exact hz

/-- Trails tell where the nodes are, in every collection that occurs in a resolution, and which of
them close a cycle. Those are the same for the rest of the resolution. -/
theorem trails_hold (resolver : Resolver σ) (q : Request) (st : σ) :
    (∀ s, resolver.Passes q st s → ∀ i < s.graph.size, i ≠ Graph.root → s.graph.IsTrailed i) ∧
      ∀ a : Point σ, resolver.Reaches q st a.1 a.2 → ∀ s, resolver.Follows q st a s →
        ∀ i < a.collection.graph.size, (s.node i).state = .omittedForCycle ↔
          (a.collection.node i).state = .omittedForCycle := by
  constructor
  · intro s h i hi hr
    obtain ⟨ht, hs⟩ := recurrent_of_passes h
    exact hs.isTrailed ht hi hr
  · intro a h s hs i hi
    exact cycle_iff_of_follows h hs hi

def entwined : Catalog := shelf [("a", "1", [("b", "1")]), ("b", "1", [("a", "1")])]

def circling : Request := .anonymous (wanted [("a", "1")]) .empty

/-- The second time that the first one is found, it closes a cycle; the first time it does not,
neither when it is found nor in the end. -/
theorem trails_hold_of_circling :
    ∃ r, (ofPolicy .nearest).Reaches circling entwined (.level []) r ∧
      (r.collection.node 3).state = .omittedForCycle ∧
      library "a" ∈ (r.collection.node 3).artifact.trail.dropLast ∧
      (r.collection.node 3).children = [] ∧ (r.collection.node 2).artifact.trail.Nodup ∧
      (∃ p < 3, (r.collection.node 3).parent = some p ∧
        (r.collection.node 3).depth = (r.collection.node p).depth + 1) ∧
      ((r.collection.node 1).state = .omittedForCycle ↔
        (((ofPolicy .nearest).start circling entwined).2.collection.node 1).state =
          .omittedForCycle) := by
  obtain ⟨res, h⟩ := finishes_iff.mp
    (show (ofPolicy .nearest).finishes 5 circling entwined = true by decide +kernel)
  obtain ⟨-, -, hr⟩ := reaches_of_resolve h
  have hs : (ofPolicy .nearest).Reaches circling entwined
      (.level ((ofPolicy .nearest).start circling entwined).1)
      ((ofPolicy .nearest).start circling entwined).2 := .start
  have hl := leads_of_resolve h (a := (.level _, _)) hs
  have hstart : 1 < ((ofPolicy .nearest).start circling entwined).2.collection.graph.size := by
    decide +kernel
  have hfacts : ((ofPolicy .nearest).resolve 5 circling entwined).2.collection.graph.size = 4 ∧
      (((ofPolicy .nearest).resolve 5 circling entwined).2.collection.node 3).state =
        .omittedForCycle ∧
      (((ofPolicy .nearest).resolve 5 circling entwined).2.collection.node 3).artifact.coordinate =
        library "a" ∧
      (((ofPolicy .nearest).resolve 5 circling entwined).2.collection.node 2).state =
        .included := by
    decide +kernel
  generalize ((ofPolicy .nearest).resolve 5 circling entwined).2 = r at hr hl hfacts
  obtain ⟨hsize, hthree, hname, htwo⟩ := hfacts
  obtain ⟨hplaced, hlasting⟩ := trails_hold (ofPolicy .nearest) circling entwined
  have hfollows : (ofPolicy .nearest).Follows circling entwined
      (.level ((ofPolicy .nearest).start circling entwined).1,
        ((ofPolicy .nearest).start circling entwined).2) r.collection :=
    .deciding (x := 0) hl .refl
  have hpass := Passes.following hs hfollows
  obtain ⟨⟨p, hp, hpar, hdepth, -⟩, -, hcycle, hleaf, -⟩ :=
    hplaced _ hpass 3 (by rw [hsize]; decide) (by decide)
  obtain ⟨-, -, -, -, hdistinct⟩ := hplaced _ hpass 2 (by rw [hsize]; decide) (by decide)
  refine ⟨r, hr, hthree, hname ▸ hcycle.mp hthree, (hleaf hthree).1, ?_, ⟨p, hp, hpar, hdepth⟩,
    hlasting (.level _, _) hs _ hfollows 1 hstart⟩
  exact hdistinct (fun h => absurd (htwo.symm.trans h) (by decide))

end Resolver

end Mediation
