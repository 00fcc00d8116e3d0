import Mediation.Proofs.Graph.Visible
import Mediation.Proofs.Run.Outcome
import Mediation.Source.Catalog

/-! # Winners

At no time does an identity have two winners below the root, and all that is included
hangs on the root through included nodes. When a run ends, no identity that is left in
the result lacks its winner.
-/

namespace Mediation

namespace Collection.Sound

variable {s : Collection} {i j : ℕ} (h : s.Sound)
include h

theorem mem_visible_of_included (hi : (s.node i).state = .included) : i ∈ s.graph.visible := by
  induction i using Nat.strong_induction_on with
  | _ i ih =>
    rw [h.tree.mem_visible_iff (isIncluded_iff.mpr h.root_included)]
    by_cases hr : i = Graph.root
    · exact .inl hr
    · obtain ⟨p, hp, hpi, hm⟩ := h.parent_of_live hr (.inr hi)
      have hm' : i ∈ s.graph.children p := (children_eq s p).symm ▸ hm
      exact .inr ⟨p, ih p (h.tree.lt_of_child hm') hpi, isIncluded_iff.mpr hpi, hm'⟩

theorem parent_of_visible (hi : i ∈ s.graph.visible) (hr : i ≠ Graph.root) :
    ∃ p : ℕ, (s.node p).state = .included ∧ i ∈ (s.node p).children ∧
      (s.node i).parent = some p := by
  obtain hi | ⟨p, -, hp, hm⟩ :=
    (h.tree.mem_visible_iff (isIncluded_iff.mpr h.root_included)).mp hi
  · exact absurd hi hr
  · exact ⟨p, isIncluded_iff.mp hp, (children_eq s p) ▸ hm, (h.tree.child p i hm).2⟩

theorem mem_included_iff :
    i ∈ s.graph.included ↔ i ≠ Graph.root ∧ (s.node i).state = .included := by
  have hm : i ∈ s.graph.included ↔
      i ∈ s.graph.visible ∧ i ≠ Graph.root ∧ (s.node i).state = .included := by
    simp [Graph.included, isIncluded_iff]
  rw [hm]
  exact ⟨fun hi => hi.2, fun hi => ⟨h.mem_visible_of_included hi.2, hi⟩⟩

theorem count_included (hr : i ≠ Graph.root) (hi : (s.node i).state = .included) :
    s.graph.included.count i = 1 :=
  List.count_eq_one_of_mem (h.tree.nodup_visible.filter _) (h.mem_included_iff.mpr ⟨hr, hi⟩)

end Collection.Sound

namespace Graph

variable {g : Graph}

theorem length_eq_add_countP (g : Graph) (ids : List NodeId) :
    ids.length = ids.countP (fun id => (g.node id).state == .pending) +
      ids.countP g.isIncluded + ids.countP (fun id => (g.node id).state == .omittedForConflict) +
      ids.countP (fun id => (g.node id).state == .omittedForCycle) +
      ids.countP (fun id => (g.node id).state == .failed) := by
  induction ids with
  | nil => rfl
  | cons id ids ih =>
    have hi : g.isIncluded id = ((g.node id).state == .included) := rfl
    simp only [List.countP_cons, List.length_cons, ih, hi]
    cases (g.node id).state <;> simp <;> omega

theorem countP_visible (t : g.IsTree) (hr : g.isIncluded root = true) :
    g.visible.countP g.isIncluded = g.included.length + 1 := by
  have hv : root ∉ g.shownBelow g.size [root] := (List.nodup_cons.mp t.nodup_visible).1
  have hf : ∀ id ∈ g.shownBelow g.size [root],
      (id != root && g.isIncluded id) = g.isIncluded id := by
    intro id hid
    have hne : id ≠ root := fun he => hv (he ▸ hid)
    simp [hne]
  have hcut : (root :: g.shownBelow g.size [root]).filter
      (fun id => id != root && g.isIncluded id) =
      (g.shownBelow g.size [root]).filter g.isIncluded := by
    rw [List.filter_cons_of_neg (by simp), List.filter_congr hf]
  rw [included, visible, hcut, List.countP_cons_of_pos hr, List.countP_eq_length_filter]

end Graph

namespace Collection.Steady

variable {s : Collection} (h : Steady (s, []))
include h

/-- An identity with a visible node that neither failed nor closed a cycle has one winner. -/
theorem existsUnique_winner {m : ℕ} (hm : m ∈ s.graph.visible) (hr : m ≠ Graph.root)
    (hp : (s.node m).state ≠ .pending) (hf : (s.node m).state ≠ .failed)
    (hc : (s.node m).state ≠ .omittedForCycle) :
    ∃! w : NodeId, w ∈ s.graph.visible ∧ w ≠ Graph.root ∧ s.graph.isIncluded w = true ∧
      (s.node w).key = (s.node m).key := by
  have hs := h.sound
  suffices hw : ∃ w : ℕ, w ≠ Graph.root ∧ (s.node w).state = .included ∧
      (s.node w).key = (s.node m).key by
    obtain ⟨w, hwr, hwi, hwk⟩ := hw
    refine ⟨w, ⟨hs.mem_visible_of_included hwi, hwr, isIncluded_iff.mpr hwi, hwk⟩, ?_⟩
    rintro v ⟨-, hvr, hvi, hvk⟩
    exact hs.unique v w hvr hwr (isIncluded_iff.mp hvi) hwi (hvk.trans hwk.symm)
  obtain ⟨p, hpi, hpm, hmp⟩ := hs.parent_of_visible hm hr
  cases hst : (s.node m).state with
  | pending => exact absurd hst hp
  | failed => exact absurd hst hf
  | omittedForCycle => exact absurd hst hc
  | included => exact ⟨m, hr, hst, rfl⟩
  | omittedForConflict =>
    have hmc : m ∈ s.contenders := (hs.attached p m hpi hpm).resolve_right hc
    exact (h.seated m p hmc hmp hpi hst).resolve_left nofun

end Collection.Steady

namespace Resolver

open Collection

variable {σ : Type} {resolver : Resolver σ} {q : Request} {st : σ} {stage : Run.Stage} {r : Run σ}

theorem sound_of_reaches (h : resolver.Reaches q st stage r) : r.collection.Sound :=
  (steady_of_reaches h).sound

/-- Wherever a run gets, no two included nodes below the root share an identity, and the parent
of each is included and has it as a child. So each is listed just once. -/
theorem one_winner_of_reaches (h : resolver.Reaches q st stage r) :
    (∀ i j : NodeId, i ≠ Graph.root → j ≠ Graph.root → r.collection.graph.isIncluded i = true →
      r.collection.graph.isIncluded j = true →
      (r.collection.node i).key = (r.collection.node j).key → i = j) ∧
    (∀ i : NodeId, i ≠ Graph.root → r.collection.graph.isIncluded i = true →
      ∃ p, (r.collection.node i).parent = some p ∧ r.collection.graph.isIncluded p = true ∧
        i ∈ r.collection.graph.children p) ∧
    ∀ i : NodeId, i ≠ Graph.root → r.collection.graph.isIncluded i = true →
      r.collection.graph.included.count i = 1 := by
  have hs := sound_of_reaches h
  refine ⟨fun i j hi hj hii hjj => ?_, fun i hr hi => ?_, fun i hr hi => ?_⟩
  · exact hs.unique i j hi hj (isIncluded_iff.mp hii) (isIncluded_iff.mp hjj)
  · obtain ⟨p, hp, hpi, hm⟩ := hs.parent_of_live hr (.inr (isIncluded_iff.mp hi))
    exact ⟨p, hp, isIncluded_iff.mpr hpi, (children_eq _ p).symm ▸ hm⟩
  · exact hs.count_included hr (isIncluded_iff.mp hi)

def library (name : Text) : Coordinate := .jar "g" name

def wanted (ds : List (Text × Text)) : List Dependency :=
  ds.map fun d => .plain (library d.1) (.soft ⟨d.2⟩)

def shelf (releases : List (Text × Text × List (Text × Text))) : Catalog :=
  releases.foldl (fun s r => s.add (library r.1).key ⟨r.2.1⟩ ⟨wanted r.2.2, .empty⟩) .empty

def ofPolicy (policy : Policy) : Resolver Catalog :=
  .ofConfig (Catalog.source 0) { Config.standard with policy := policy }

def clash : Catalog := shelf [("a", "1", [("b", "2")]), ("b", "1", []), ("b", "2", [])]

def clashing : Request := .anonymous (wanted [("a", "1"), ("b", "1")]) .empty

theorem one_winner_of_clash :
    ∃ r, (ofPolicy .newest).Reaches clashing clash (.level []) r ∧
      (r.collection.node 2).key = (r.collection.node 3).key ∧
      r.collection.graph.isIncluded 3 = true ∧ r.collection.graph.isIncluded 2 = false ∧
      r.collection.graph.included.count 3 = 1 := by
  obtain ⟨res, h⟩ := finishes_iff.mp
    (show (ofPolicy .newest).finishes 5 clashing clash = true by decide +kernel)
  obtain ⟨-, -, hr⟩ := reaches_of_resolve h
  have hk : (((ofPolicy .newest).resolve 5 clashing clash).2.collection.node 2).key =
      (((ofPolicy .newest).resolve 5 clashing clash).2.collection.node 3).key := by
    decide +kernel
  have hi : ((ofPolicy .newest).resolve 5 clashing clash).2.collection.graph.isIncluded 3 =
      true := by
    decide +kernel
  obtain ⟨hunique, -, hcount⟩ := one_winner_of_reaches hr
  refine ⟨_, hr, hk, hi, ?_, hcount 3 (by decide) hi⟩
  by_contra hn
  exact absurd (hunique 2 3 (by decide) (by decide) (Bool.not_eq_false _ ▸ hn) hi hk) (by decide)

theorem poised_of_resolve {fuel : ℕ} {res : Resolution}
    (h : (resolver.resolve fuel q st).1 = .ok (some res)) :
    Run.Poised (resolver.session q) st [] (fun _ => False) (resolver.resolve fuel q st).2 ∧
      (resolver.resolve fuel q st).2.collection.requeue = [] ∧
      res.graph = (resolver.resolve fuel q st).2.collection.graph := by
  obtain ⟨rfl, hq, hr⟩ := reaches_of_resolve h
  exact ⟨holds_of_reaches hr, hq, rfl⟩

theorem expanded_of_resolve {fuel : ℕ} {res : Resolution}
    (h : (resolver.resolve fuel q st).1 = .ok (some res)) {i : ℕ}
    (hi : ((resolver.resolve fuel q st).2.collection.node i).state = .included) :
    ((resolver.resolve fuel q st).2.collection.node i).expanded = true := by
  obtain ⟨hp, hq, -⟩ := poised_of_resolve h
  by_contra hn
  obtain hm | hm := hp.waiting i hi (Bool.eq_false_iff.mpr hn)
  · rw [hq] at hm
    cases hm
  · exact hm

theorem every_identity_has_winner {fuel : ℕ} {res : Resolution}
    (h : (resolver.resolve fuel q st).1 = .ok (some res)) :
    (∀ m ∈ res.graph.visible, m ≠ Graph.root → (res.graph.node m).state ≠ .failed →
      (res.graph.node m).state ≠ .omittedForCycle →
      ∃! w, w ∈ res.graph.visible ∧ w ≠ Graph.root ∧ res.graph.isIncluded w = true ∧
        (res.graph.node w).key = (res.graph.node m).key) ∧
    (∀ m ∈ res.graph.visible, (res.graph.node m).state ≠ .pending) ∧
    (∀ i : NodeId, i ≠ Graph.root → res.graph.isIncluded i = true →
      (res.graph.node i).version.isSome = true ∧ (res.graph.node i).expanded = true ∧
        (res.graph.node i).artifact.resolved = true) ∧
    res.stats.included + res.stats.omittedForConflict + res.stats.omittedForCycle +
      res.stats.failed + 1 = res.graph.visible.length := by
  obtain ⟨hp, hq, hg⟩ := poised_of_resolve h
  have hs := hp.steady.sound
  have hroot : res.graph.isIncluded Graph.root = true := hg ▸ isIncluded_iff.mpr hs.root_included
  have hnone (m : NodeId) : ((resolver.resolve fuel q st).2.collection.node m).state ≠ .pending :=
    fun hm => List.not_mem_nil (hp.pending m hm)
  have hpending (m : NodeId) : (res.graph.node m).state ≠ .pending := by
    rw [hg]
    exact hnone m
  refine ⟨fun m hm hr hf hc => ?_, fun m _ => hpending m, fun i hr hi => ?_, ?_⟩
  · rw [hg] at hm hf hc ⊢
    exact hp.steady.existsUnique_winner hm hr (hnone m) hf hc
  · rw [hg] at hi ⊢
    have hi := isIncluded_iff.mp hi
    have hx : ((resolver.resolve fuel q st).2.collection.node i).expanded = true := by
      by_contra hn
      obtain hm | hm := hp.waiting i hi (Bool.eq_false_iff.mpr hn)
      · rw [hq] at hm
        cases hm
      · exact hm
    exact ⟨hs.versioned i hr hi, hx, hs.resolved i hx⟩
  · have hlen := res.graph.length_eq_add_countP res.graph.visible
    have hnone :
        res.graph.visible.countP (fun id => (res.graph.node id).state == .pending) = 0 := by
      rw [List.countP_eq_zero]
      exact fun m _ hm => hpending m (by simpa using hm)
    rw [hnone, Graph.countP_visible (hg ▸ hs.tree) hroot] at hlen
    simp only [Resolution.stats, Resolution.visibleIn, ← List.countP_eq_length_filter]
    omega

theorem winner_of_clash :
    ∃ res, ((ofPolicy .newest).resolve 5 clashing clash).1 = .ok (some res) ∧
      2 ∈ res.graph.visible ∧ (res.graph.node 2).state = .omittedForConflict ∧
      (∃! w, w ∈ res.graph.visible ∧ w ≠ Graph.root ∧ res.graph.isIncluded w = true ∧
        (res.graph.node w).key = (res.graph.node 2).key) ∧
      res.stats.included + res.stats.omittedForConflict + res.stats.omittedForCycle +
        res.stats.failed + 1 = res.graph.visible.length := by
  obtain ⟨res, h⟩ := finishes_iff.mp
    (show (ofPolicy .newest).finishes 5 clashing clash = true by decide +kernel)
  obtain ⟨hres, -, -⟩ := reaches_of_resolve h
  have hv : 2 ∈ res.graph.visible := by
    rw [hres]
    decide +kernel
  have hs : (res.graph.node 2).state = .omittedForConflict := by
    rw [hres]
    decide +kernel
  obtain ⟨h₁, -, -, h₄⟩ := every_identity_has_winner h
  exact ⟨res, h, hv, hs, h₁ 2 hv (by decide) (hs ▸ nofun) (hs ▸ nofun), h₄⟩

def selfNamed : Request :=
  ⟨⟨"g", "a", "pom", none⟩, ⟨"1"⟩, wanted [("a", "1")], .empty, none⟩

/-- The root takes part in no conflict, so a node below it may share its identity. -/
theorem two_included_of_selfNamed :
    ∃ res, ((ofPolicy .nearest).resolve 5 selfNamed (shelf [("a", "1", [])])).1 = .ok (some res) ∧
      1 ∈ res.graph.visible ∧ 1 ≠ Graph.root ∧ (res.graph.node 1).state = .included ∧
      ¬ ∃! w, w ∈ res.graph.visible ∧ res.graph.isIncluded w = true ∧
        (res.graph.node w).key = (res.graph.node 1).key := by
  have hf : (ofPolicy .nearest).finishes 5 selfNamed (shelf [("a", "1", [])]) = true := by
    decide +kernel
  obtain ⟨res, h⟩ := finishes_iff.mp hf
  obtain ⟨hres, -, -⟩ := reaches_of_resolve h
  have hv : 1 ∈ res.graph.visible ∧ (res.graph.node 1).state = .included := by
    rw [hres]
    decide +kernel
  have hr : 0 ∈ res.graph.visible ∧ res.graph.isIncluded 0 = true ∧
      (res.graph.node 0).key = (res.graph.node 1).key := by
    rw [hres]
    decide +kernel
  refine ⟨res, h, hv.1, by decide, hv.2, fun ⟨w, _, hw⟩ => ?_⟩
  have h₀ := hw 0 hr
  have h₁ := hw 1 ⟨hv.1, Graph.isIncluded_iff.mpr hv.2, rfl⟩
  exact absurd (h₀.trans h₁.symm) (by decide)

end Resolver

end Mediation
