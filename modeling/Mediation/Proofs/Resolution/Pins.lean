import Mediation.Proofs.Breadth.Pace
import Mediation.Proofs.Resolution.Scopes

/-! # Pins of a request

An identity that a request pins to a version, and that is no direct dependency, is in that
version: below the direct dependencies the pin overrides every declaration and every other pin,
and among mere recommendations there is nothing to narrow.
-/

namespace Mediation

/-- Whether a node was declared as a recommendation of a version, still is one, and has no other
version. -/
structure Node.IsPinned (n : Node) (v : Version) : Prop where
  declared : n.declaredConstraint = .soft v
  current : n.constraint = .soft v
  version : ∀ w, n.version = some w → w = v

theorem Node.IsPinned.of_stock {m n : Node} {v : Version} (h : m.IsPinned v)
    (hs : n.stock = m.stock) : n.IsPinned v := by
  have hc : n.constraint = m.constraint := (congrArg Node.constraint hs :)
  have hd : n.declaredConstraint = m.declaredConstraint :=
    (congrArg Node.declaredConstraint hs :)
  have hv : n.version = m.version := (congrArg Node.version hs :)
  exact ⟨hd.trans h.declared, hc.trans h.current, hv ▸ h.version⟩

namespace Collection

variable {rules : Rules} {s : Collection} {g : Graph} {d : Descriptor} {y : Dependency}
  {c : Child} {pin : Pin} {k : Key} {v : Version} {j n x : ℕ}

/-- What a dependency becomes below a node with a parent has the version that the request pins. -/
theorem constraint_of_childOf? (h : childOf? rules g n y = some c) (hn : (g.node n).depth ≠ 0)
    (hp : rules.pins.get? y.coordinate.key = some pin) {e : Constraint}
    (he : pin.version = some e) : c.constraint = e := by
  unfold childOf? at h
  split at h
  · cases h
  · rw [hp] at h
    obtain ⟨scope, -, h⟩ := Option.bind_eq_some_iff.mp h
    obtain ⟨_, -, h⟩ := Option.bind_eq_some_iff.mp h
    cases h
    simp [Dependency.pinned, he]

/-- Whether all nodes of an identity that are in play and have not failed are pinned. -/
def PinsTo (s : Collection) (k : Key) (v : Version) : Prop :=
  ∀ j : ℕ, s.InPlay j → (s.node j).state ≠ .failed → (s.node j).key = k → (s.node j).IsPinned v

namespace PinsTo

theorem not_isNarrowing (h : s.PinsTo k v) (hs : s.Sound) (hk : (s.node x).key = k) {i : ℕ}
    {c : Constraint} : ¬ s.IsNarrowing x i c := by
  intro hn
  have hi := isIncluded_iff.mp hn.rival.included
  have hwinner := h i (hs.inPlay_of_rival hn.rival) (by simp [hi]) (hn.rival.key.trans hk)
  have hnewcomer := h x (hs.inPlay_of_pending hn.pending) (by simp [hn.pending]) hk
  have hard := hn.hard
  rw [hwinner.current, hnewcomer.declared] at hard
  cases hard

theorem move {σ : Type} {src : Source σ} {st : σ} {a b : Situation} (h : a.1.PinsTo k v)
    (ho : Constraint.isOpenVersion v = false) (m : Move rules (src.evidence st) x a b)
    (hs : Steady a) : b.1.PinsTo k v := by
  intro j hj hn hk
  obtain ⟨E, hf⟩ := m.fades hs
  have hk : (a.1.node j).key = k := (Node.key_of_site (hf.site j)).symm.trans hk
  have hpin (hfail : (a.1.node j).state ≠ .failed) := h j (hf.inPlay j hj) hfail hk
  cases m.becomes hs hj with
  | rest hst hfail => exact (hpin fun hf => hn (hfail hf)).of_stock hst
  | @choose w hjx hp hw hb =>
    subst hjx
    obtain ⟨hd, hc, -⟩ := hpin (by simp [hp])
    rw [hb]
    exact {
      declared := hd
      current := hc
      version u hu := by
        rw [hc] at hw
        have hv : some v = some w :=
          Source.recommended_of_offers rfl (by simp [Constraint.isConcrete, Constraint.soft, ho]) hw
        exact (Option.some.inj (hv.trans hu)).symm }
  | tighten hjx hn => exact absurd hn (h.not_isNarrowing hs.sound (hjx ▸ hk))
  | retain hn => exact absurd hn (h.not_isNarrowing hs.sound (hn.rival.key.symm.trans hk))
  | shift hn => exact absurd hn (h.not_isNarrowing hs.sound (hn.rival.key.symm.trans hk))
  | fail hf => exact absurd hf hn

/-- An expansion keeps an identity pinned if the request pins it, and it is no dependency of the
root. -/
theorem expand (h : s.PinsTo k v) (hs : s.Sound) (hx : x < s.graph.size) (d : Descriptor)
    (hp : rules.pins.get? k = some pin) (hv : pin.version = some (.soft v))
    (hroot : (s.node x).depth = 0 → ∀ y ∈ d.dependencies, y.coordinate.key ≠ k) :
    (s.expand rules x d).2.PinsTo k v := by
  intro j hj hf hk
  rcases of_inPlay_expand hx d hs hj with ⟨hjs, hjp⟩ | ⟨hjs, hlt, -⟩
  · rw [state_expand hx d hjs] at hf
    rw [key_expand hx d hjs] at hk
    obtain ⟨hd, hc, hw⟩ := h j hjp hf hk
    exact {
      declared := (declaredConstraint_expand hx d hjs).trans hd
      current := (constraint_expand hx d hjs).trans hc
      version := by
        rw [view_expand hx d Node.version (fun _ => rfl) (fun _ _ => rfl) hjs]
        exact hw }
  · obtain ⟨y, hy, c, hc, hnode⟩ := exists_child_of_new rules hs.tree hx d hjs hlt
    have hkey : y.coordinate.key = k := by
      rw [hnode] at hk
      rw [← (scope_of_childOf? hc).1]
      exact hk
    have hdepth : ((s.opened x d).graph.node x).depth = (s.node x).depth :=
      view_opened d Node.depth fun _ => rfl
    have hdeep : ((s.opened x d).graph.node x).depth ≠ 0 := by
      intro hzero
      exact hroot (hdepth.symm.trans hzero) y hy hkey
    have hcon : c.constraint = .soft v := constraint_of_childOf? hc hdeep (hkey ▸ hp) hv
    rw [hnode]
    exact ⟨hcon, hcon, nofun⟩

end PinsTo

end Collection

namespace Resolver

open Run Collection

variable {σ : Type} {resolver : Resolver σ} {q : Request} {st : σ} {k : Key} {pin : Pin}
  {v : Version}

/-- All along a resolution the nodes of an identity that the request pins are pinned. -/
theorem pinsTo_of_reaches (hp : q.management.get? k = some pin)
    (hv : pin.version = some (.soft v)) (ho : Constraint.isOpenVersion v = false)
    (hk : ∀ d ∈ q.dependencies, d.coordinate.key ≠ k) {stage : Stage} {r : Run σ}
    (h : resolver.Reaches q st stage r) : r.collection.PinsTo k v := by
  refine reaches_induct (P := fun z => z.collection.PinsTo k v) ?_ (fun z w hz _ hzw hs => ?_) h
  · have hs := (steady_start q.root q.version q.management).sound
    have hnone : (Collection.start q.root q.version q.management).PinsTo k v :=
      fun j hj => absurd hj.1 List.not_mem_nil
    exact hnone.expand hs hs.tree.size_pos q.descriptor hp hv fun _ => hk
  · have hst := steady_of_reaches hz
    cases hzw with
    | rests hc => exact hc ▸ hs
    | clears hc => exact hc ▸ hs
    | moves hm =>
      exact hm.preserve_of_steady (P := fun b => b.1.PinsTo k v) hst
        (fun _ _ m hst hs => hs.move ho m hst) hs
    | expands _ hd hc =>
      refine hc ▸ hs.expand hst.sound hd.lt_size _ hp hv fun hzero => ?_
      exact absurd ((hst.sound.tree.depth_eq_zero_iff hd.lt_size).mp hzero) hd.ne_root

/-- A pin of the request is absolute further down: an identity that it pins to a version, which is
none to be made concrete, and that is no direct dependency is included in that version only. -/
theorem pinned_version_prevails {fuel : ℕ} {res : Resolution}
    (h : (resolver.resolve fuel q st).1 = .ok (some res)) (hp : q.management.get? k = some pin)
    (hv : pin.version = some (.soft v)) (ho : Constraint.isOpenVersion v = false)
    (hk : ∀ d ∈ q.dependencies, d.coordinate.key ≠ k) :
    ∀ a ∈ res.included, a.key = k → a.selected = some v := by
  obtain ⟨hres, -, hr⟩ := reaches_of_resolve h
  have hs := (steady_of_reaches hr).sound
  have hpins := pinsTo_of_reaches hp hv ho hk hr
  subst hres
  intro a ha hak
  obtain ⟨i, hi, rfl⟩ := List.mem_map.mp ha
  obtain ⟨hir, hii⟩ := hs.mem_included_iff.mp hi
  obtain ⟨w, hw⟩ := Option.isSome_iff_exists.mp (hs.versioned i hir hii)
  have hpin := hpins i (hs.inPlay hir (.inr hii)) (by simp [hii]) hak
  exact hpin.version w hw ▸ hw

def insistent : Catalog :=
  (shelf [("b", "1", []), ("b", "2", [])]).add (library "a").key ⟨"1"⟩
    ⟨[.plain (library "b") (.exact ⟨"2"⟩)], .empty⟩

/-- A request for that library that pins the other one to the older version. -/
def insisting : Request :=
  .anonymous (wanted [("a", "1")]) (Table.empty.put (library "b").key ⟨some (.soft ⟨"1"⟩), none⟩)

/-- The other library is included, in the version of the pin. -/
theorem pinned_version_prevails_of_insisting :
    ∃ res a, ((ofPolicy .newest).resolve 5 insisting insistent).1 = .ok (some res) ∧
      insisting.management.get? (library "b").key = some ⟨some (.soft ⟨"1"⟩), none⟩ ∧
      a ∈ res.included ∧ a.key = (library "b").key ∧ a.selected = some ⟨"1"⟩ := by
  obtain ⟨res, h⟩ := finishes_iff.mp
    (show (ofPolicy .newest).finishes 5 insisting insistent = true by decide +kernel)
  obtain ⟨hres, -, -⟩ := reaches_of_resolve h
  have hi : 2 ∈ res.graph.included ∧
      (res.graph.node 2).artifact.key = (library "b").key := by
    rw [hres]
    decide +kernel
  have hmem : (res.graph.node 2).artifact ∈ res.included := List.mem_map.mpr ⟨2, hi.1, rfl⟩
  have hp : insisting.management.get? (library "b").key = some ⟨some (.soft ⟨"1"⟩), none⟩ := by
    decide +kernel
  have hk : ∀ d ∈ insisting.dependencies, d.coordinate.key ≠ (library "b").key := by
    decide +kernel
  exact ⟨res, _, h, hp, hmem, hi.2,
    pinned_version_prevails h hp rfl (by decide +kernel) hk _ hmem hi.2⟩

end Resolver

end Mediation
