import Mediation.Proofs.Run.Registration
import Mediation.Proofs.Collection.Offspring
import Mediation.Resolution.Request

/-! # The course of a run

A run goes from level to level. Between two of its steps it registers the nodes of a
level, or reads descriptors. All along every pending node is one that is still to be
registered, and every included node that is not expanded is still to be expanded.
-/

namespace Mediation.Run

open Collection

variable {σ : Type}

/-- Where a run stands between two steps: at a level, with nodes left to register, or with
descriptors left to read. -/
inductive Stage
  | level (ids : List NodeId)
  | registering (rest : List (NodeId × Except NodeError Version)) (ids : List NodeId)
  | describing (rest : List (NodeId × SourceAnswer Descriptor)) (created : List NodeId)

inductive Reaches (session : Session σ) (level : List NodeId) (r₀ : Run σ) : Stage → Run σ → Prop
  | start : Reaches session level r₀ (.level level) r₀
  | select {ids : List NodeId} {r r' : Run σ} {rest : List (NodeId × Except NodeError Version)}
      (h : Reaches session level r₀ (.level ids) r) (hn : r.isSettled ids = false)
      (hs : selectAll session ids r = .ok rest r') :
      Reaches session level r₀ (.registering rest ids) r'
  | register {ids : List NodeId} {r r' : Run σ} {x : NodeId} {v : Except NodeError Version}
      {rest : List (NodeId × Except NodeError Version)} {u : Unit}
      (h : Reaches session level r₀ (.registering ((x, v) :: rest) ids) r)
      (hs : register session x v r = .ok u r') :
      Reaches session level r₀ (.registering rest ids) r'
  | fetch {ids : List NodeId} {r r' : Run σ} {rest : List (NodeId × SourceAnswer Descriptor)}
      (h : Reaches session level r₀ (.registering [] ids) r)
      (hs : fetchAll session ids r = .ok rest r') :
      Reaches session level r₀ (.describing rest []) r'
  | describe {created ids : List NodeId} {r r' : Run σ} {x : NodeId} {d : SourceAnswer Descriptor}
      {rest : List (NodeId × SourceAnswer Descriptor)}
      (h : Reaches session level r₀ (.describing ((x, d) :: rest) created) r)
      (hs : describe session x d r = .ok ids r') :
      Reaches session level r₀ (.describing rest (created ++ ids)) r'
  | next {created : List NodeId} {r : Run σ}
      (h : Reaches session level r₀ (.describing [] created) r) :
      Reaches session level r₀ (.level created) r

/-- A run whose pending nodes are in a queue, and whose nodes that wait for an expansion are
accounted for. -/
structure Poised (session : Session σ) (st : σ) (queue : List NodeId) (waiting : ℕ → Prop)
    (r : Run σ) : Prop where
  steady : Steady (r.collection, [])
  later : session.source.Later st r.source
  opened : (r.collection.node Graph.root).expanded = true
  blank : r.collection.IsBlank
  pending : ∀ j : ℕ, (r.collection.node j).state = .pending → j ∈ queue
  order : r.collection.InOrder queue
  waiting : ∀ j : ℕ, (r.collection.node j).state = .included →
    (r.collection.node j).expanded = false → j ∈ r.collection.requeue ∨ waiting j
  candid : r.collection.IsCandid

structure IsSelected (session : Session σ) (st : σ) (c : Collection) (j : ℕ)
    (v : Except NodeError Version) : Prop where
  offers : ∀ w, v = .ok w → (told session st).offers (c.node j).artifact.coordinate
    (c.node j).declaredConstraint w

structure IsDescribed (session : Session σ) (st : σ) (c : Collection) (j : ℕ)
    (d : SourceAnswer Descriptor) : Prop where
  lt_size : j < c.graph.size
  ne_root : j ≠ Graph.root
  expanded : (c.node j).expanded = false
  describes : ∀ e, d = .ok e → (told session st).describes (c.node j).artifact.coordinate
    (c.node j).version e

/-- The invariant of a run at a stage. -/
def Holds (session : Session σ) (st : σ) : Stage → Run σ → Prop
  | .level ids, r => Poised session st ids (fun _ => False) r
  | .registering rest ids, r =>
    Poised session st (rest.map Prod.fst) (· ∈ ids) r ∧
      ∀ j v, (j, v) ∈ rest → j ∈ ids ∧ IsSelected session st r.collection j v
  | .describing rest created, r =>
    Poised session st created (fun j => ∃ d, (j, d) ∈ rest) r ∧
      (rest.map Prod.fst).Nodup ∧ ∀ j d, (j, d) ∈ rest → IsDescribed session st r.collection j d

variable {session : Session σ} {st : σ} {r r' : Run σ} {ids created : List NodeId} {x : ℕ}

/-- The selections are those for the pending nodes of a level, in their order. -/
theorem of_selectAll_eq_ok {rest : List (NodeId × Except NodeError Version)}
    (hs : selectAll session ids r = .ok rest r') :
    r'.collection = r.collection ∧ session.source.Later r.source r'.source ∧
      rest.map Prod.fst = (ids.filter fun id => (r.collection.node id).state == .pending) ∧
      ∀ j v, (j, v) ∈ rest → ∃ st', session.source.Later r.source st' ∧
        ((session.source.selection session.limits.fetch (r.collection.node j).artifact
          (r.collection.node j).constraint).ask st').1 = v := by
  unfold selectAll at hs
  obtain ⟨_, _, hc, hs⟩ := bind_eq_ok.mp hs
  obtain ⟨rfl, rfl⟩ := collected_eq_ok.mp hc
  obtain ⟨answers, r₁, ha, hs⟩ := bind_eq_ok.mp hs
  obtain ⟨_, r₂, hn, hs⟩ := bind_eq_ok.mp hs
  obtain ⟨rfl, rfl⟩ := pure_eq_ok.mp hs
  obtain ⟨hc₂, hl₂⟩ := of_count hn
  have hasked : ∀ q ∈ (ids.filter fun id => (r.collection.node id).state == .pending).map
      fun id => session.source.selection session.limits.fetch (r.collection.node id).artifact
        (r.collection.node id).constraint, session.source.IsAsked q := by
    intro q hq
    obtain ⟨j, -, rfl⟩ := List.mem_map.mp hq
    exact Source.isAsked_selection
  obtain ⟨hc₁, hl₁, hf⟩ := of_askAll_eq_ok hasked ha
  rw [List.forall₂_map_left_iff, List.forall₂_iff_zip] at hf
  obtain ⟨hlen, hzip⟩ := hf
  exact ⟨hc₂.trans hc₁, hl₂ ▸ hl₁, List.map_fst_zip (Nat.le_of_eq hlen), fun _ _ hm => hzip hm⟩

theorem holds_select {rest : List (NodeId × Except NodeError Version)}
    (h : Holds session st (.level ids) r) (hs : selectAll session ids r = .ok rest r') :
    Holds session st (.registering rest ids) r' := by
  obtain ⟨hc, hl, hfst, hasked⟩ := of_selectAll_eq_ok hs
  have hmem {j : ℕ} : j ∈ rest.map Prod.fst ↔
      j ∈ ids ∧ (r.collection.node j).state = .pending := by
    simp [hfst]
  have hpoised : Poised session st (rest.map Prod.fst) (· ∈ ids) r' := {
    steady := hc ▸ h.steady
    later := h.later.trans hl
    opened := hc ▸ h.opened
    blank := hc ▸ h.blank
    pending j hj := by
      rw [hc] at hj
      exact hmem.mpr ⟨h.pending j hj, hj⟩
    order := by
      rw [hc, hfst]
      exact h.order.sublist List.filter_sublist
    waiting j hj he := by
      rw [hc] at hj he ⊢
      exact (h.waiting j hj he).imp_right False.elim
    candid := hc ▸ h.candid }
  refine ⟨hpoised, fun j v hm => ?_⟩
  obtain ⟨hj, hp⟩ := hmem.mp (List.mem_map_of_mem (f := Prod.fst) hm)
  obtain ⟨st', hl', ha⟩ := hasked j v hm
  refine ⟨hj, ⟨fun w hw => ?_⟩⟩
  rw [hc, ← h.blank j hp]
  exact Source.offers_of_selection (h.later.trans hl') (ha.trans hw)

theorem arrives_register {v : Except NodeError Version} {u : Unit}
    {rest : List (NodeId × Except NodeError Version)}
    (h : Holds session st (.registering ((x, v) :: rest) ids) r)
    (hs : register session x v r = .ok u r') :
    Arrives session.rules (told session st) x r.collection r'.collection ∧
      session.source.Later st r'.source := by
  obtain ⟨hp, hr⟩ := h
  refine of_register_eq_ok hp.steady (fun hx w hw => ?_) (hp.blank x) hp.order.isLatest hp.candid
    hp.later hs
  rw [hp.blank x hx]
  exact (hr x v (List.mem_cons_self ..)).2.offers w hw

theorem holds_register {v : Except NodeError Version} {u : Unit}
    {rest : List (NodeId × Except NodeError Version)}
    (h : Holds session st (.registering ((x, v) :: rest) ids) r)
    (hs : register session x v r = .ok u r') : Holds session st (.registering rest ids) r' := by
  obtain ⟨ha, hl⟩ := arrives_register h hs
  obtain ⟨hp, hr⟩ := h
  have hk : Keeps x r.collection r'.collection := .of_moves ha.moves hp.steady
  have hpoised : Poised session st (rest.map Prod.fst) (· ∈ ids) r' := {
    steady := ha.moves.steady hp.steady
    later := hl
    opened := hk.opened.trans hp.opened
    blank := hk.isBlank hp.blank ha.state
    pending j hj := by
      have hjx : j ≠ x := fun he => ha.state (he ▸ hj)
      exact (List.mem_cons.mp (hp.pending j (hk.pending j hj).1)).resolve_left hjx
    order := hp.order.tail hk
    waiting j hj he := by
      obtain hq | rfl | ⟨hj, he⟩ := hk.waiting j hj he
      · exact .inl hq
      · exact .inr (hr j v (List.mem_cons_self ..)).1
      · exact (hp.waiting j hj he).imp_left (hk.requeue j)
    candid := hp.candid.moves ha.moves hp.steady }
  refine ⟨hpoised, fun j w hm => ?_⟩
  obtain ⟨hj, hsel⟩ := hr j w (List.mem_cons_of_mem _ hm)
  have h₁ : (r'.collection.node j).artifact.coordinate =
    (r.collection.node j).artifact.coordinate := congrArg Site.coordinate (hk.site j)
  have h₂ : (r'.collection.node j).declaredConstraint =
    (r.collection.node j).declaredConstraint := congrArg Site.constraint (hk.site j)
  exact ⟨hj, ⟨by rw [h₁, h₂]; exact hsel.offers⟩⟩

theorem nodup_eraseDups (ids : List NodeId) : ids.eraseDups.Nodup := by
  induction hn : ids.length using Nat.strong_induction_on generalizing ids with
  | _ n ih =>
    cases ids with
    | nil => simp
    | cons i ids =>
      rw [List.eraseDups_cons, List.nodup_cons]
      refine ⟨by simp, ih _ ?_ _ rfl⟩
      rw [← hn, List.length_cons]
      exact Nat.lt_succ_of_le (List.length_filter_le _ _)

/-- The descriptors that were fetched are those of the nodes to expand, in their order, and
nothing is left in the queue. -/
theorem of_fetchAll_eq_ok {rest : List (NodeId × SourceAnswer Descriptor)}
    (hs : fetchAll session ids r = .ok rest r') :
    r'.collection = { r.collection with requeue := [] } ∧
      session.source.Later r.source r'.source ∧
      rest.map Prod.fst = expandable r.collection ids ∧
      ∀ j d, (j, d) ∈ rest → ∃ st', session.source.Later r.source st' ∧
        ((session.source.description session.limits.fetch
          (r.collection.node j).artifact).ask st').1 = d := by
  unfold fetchAll at hs
  obtain ⟨_, _, hc, hs⟩ := bind_eq_ok.mp hs
  obtain ⟨rfl, rfl⟩ := collected_eq_ok.mp hc
  obtain ⟨_, r₁, hq, hs⟩ := bind_eq_ok.mp hs
  obtain ⟨hc₁, hl₁⟩ := of_alter hq
  obtain ⟨_, r₂, hn, hs⟩ := bind_eq_ok.mp hs
  obtain ⟨hc₂, hl₂⟩ := of_count hn
  obtain ⟨answers, r₃, ha, hs⟩ := bind_eq_ok.mp hs
  obtain ⟨rfl, rfl⟩ := pure_eq_ok.mp hs
  have hasked : ∀ q ∈ (expandable r.collection ids).map fun id =>
      session.source.description session.limits.fetch (r.collection.node id).artifact,
      session.source.IsAsked q := by
    intro q hq
    obtain ⟨j, -, rfl⟩ := List.mem_map.mp hq
    exact Source.isAsked_description
  obtain ⟨hc₃, hl₃, hf⟩ := of_askAll_eq_ok hasked ha
  rw [hl₂, hl₁] at hl₃ hf
  rw [List.forall₂_map_left_iff, List.forall₂_iff_zip] at hf
  obtain ⟨hlen, hzip⟩ := hf
  exact ⟨by rw [hc₃, hc₂, hc₁], hl₃, List.map_fst_zip (Nat.le_of_eq hlen), fun _ _ hm => hzip hm⟩

theorem mem_expandable {j : ℕ} {s : Collection} : j ∈ expandable s ids ↔
    (j ∈ s.requeue ∨ j ∈ ids) ∧ (s.node j).state = .included ∧ (s.node j).expanded = false := by
  simp [expandable, isIncluded_iff]

theorem holds_fetch {rest : List (NodeId × SourceAnswer Descriptor)}
    (h : Holds session st (.registering [] ids) r) (hs : fetchAll session ids r = .ok rest r') :
    Holds session st (.describing rest []) r' := by
  obtain ⟨hp, -⟩ := h
  obtain ⟨hcol, hl, hfst, hasked⟩ := of_fetchAll_eq_ok hs
  have hag : r.collection.Agrees r'.collection := hcol ▸ ⟨rfl, rfl, fun _ => rfl⟩
  refine ⟨?_, ?_, fun j d hm => ?_⟩
  · exact {
      steady := hag.sameShape.steady hp.steady
      later := hp.later.trans hl
      opened := (hag.expanded _).trans hp.opened
      blank j hj := by
        rw [hcol] at hj ⊢
        exact hp.blank j hj
      pending j hj := by
        rw [hag.state] at hj
        cases hp.pending j hj
      order := .nil _
      waiting j hj he := by
        rw [hag.state] at hj
        rw [hag.expanded] at he
        have hm : j ∈ expandable r.collection ids :=
          mem_expandable.mpr ⟨hp.waiting j hj he, hj, he⟩
        rw [← hfst] at hm
        obtain ⟨⟨i, d⟩, hd, rfl⟩ := List.mem_map.mp hm
        exact .inr ⟨d, hd⟩
      candid := by
        rw [hcol]
        exact hp.candid }
  · rw [hfst, expandable]
    exact (nodup_eraseDups _).filter _
  · have hm' : j ∈ expandable r.collection ids := by
      rw [← hfst]
      exact List.mem_map_of_mem (f := Prod.fst) hm
    obtain ⟨-, hi, hx⟩ := mem_expandable.mp hm'
    obtain ⟨st', hl', ha⟩ := hasked j d hm
    refine ⟨?_, ?_, (hag.expanded j).trans hx, fun e he => ?_⟩
    · rw [hag.size]
      exact Graph.lt_size_of_isIncluded (isIncluded_iff.mpr hi)
    · rintro rfl
      rw [hp.opened] at hx
      cases hx
    · have hd := Source.describes_of_description (hp.later.trans hl') (ha.trans he)
      rw [hcol]
      exact hd

inductive Reading (session : Session σ) (x : ℕ) (s : Collection) :
    SourceAnswer Descriptor → List NodeId → Collection → Prop
  | passed {d : SourceAnswer Descriptor} (h : (s.node x).state ≠ .included) :
      Reading session x s d [] s
  | failed {e : MetadataError} {t : Collection} (h : (s.node x).state = .included)
      (hf : s.isFatal session.rules x = false)
      (hr : reelect session.rules (s.collapse x (.metadata e)).2 (s.collapse x (.metadata e)).1 =
        .ok () t) : Reading session x s (.error e) [] t
  | expanded {d : Descriptor} (h : (s.node x).state = .included) :
      Reading session x s (.ok d) (s.expand session.rules x d).1 (s.expand session.rules x d).2

theorem reading_of_describe {d : SourceAnswer Descriptor}
    (hs : describe session x d r = .ok ids r') :
    Reading session x r.collection d ids r'.collection ∧ r'.source = r.source := by
  unfold describe at hs
  obtain ⟨_, _, hc, hs⟩ := bind_eq_ok.mp hs
  obtain ⟨rfl, rfl⟩ := collected_eq_ok.mp hc
  split at hs
  · rename_i hi
    obtain ⟨rfl, rfl⟩ := pure_eq_ok.mp hs
    exact ⟨.passed fun h => by simp [isIncluded_iff.mpr h] at hi, rfl⟩
  · rename_i hi
    have hi : (r.collection.node x).state = .included := isIncluded_iff.mp (by simpa using hi)
    cases d with
    | error e =>
      obtain ⟨_, r₁, hf, hs⟩ := bind_eq_ok.mp hs
      obtain ⟨rfl, rfl⟩ := pure_eq_ok.mp hs
      obtain ⟨hf, hl⟩ := of_lift hf
      obtain ⟨hf, hr⟩ := of_fail_eq_ok hf
      exact ⟨.failed hi hf hr, hl⟩
    | ok d =>
      obtain ⟨_, r₁, hf, hs⟩ := bind_eq_ok.mp hs
      obtain ⟨rfl, rfl⟩ := pure_eq_ok.mp hs
      obtain ⟨hc, hl⟩ := of_alter hf
      rw [hc]
      exact ⟨.expanded hi, hl⟩

/-- What is left of a collection with nodes in a queue and descriptors to read, once that of the
node `x` was read. -/
structure Reads (session : Session σ) (st : σ) (x : ℕ) (queue : List NodeId)
    (rest : List (NodeId × SourceAnswer Descriptor)) (s t : Collection) : Prop where
  steady : Steady (t, [])
  opened : (t.node Graph.root).expanded = true
  blank : t.IsBlank
  pending : ∀ j : ℕ, (t.node j).state = .pending → j ∈ queue
  order : t.InOrder queue
  waiting : ∀ j : ℕ, (t.node j).state = .included → (t.node j).expanded = false →
    j ∈ t.requeue ∨ j ≠ x ∧ (s.node j).state = .included ∧ (s.node j).expanded = false
  requeue : ∀ j ∈ s.requeue, j ∈ t.requeue
  candid : t.IsCandid
  described : ∀ j d, (j, d) ∈ rest → IsDescribed session st t j d

section Describe

variable {rest : List (NodeId × SourceAnswer Descriptor)} {waiting : ℕ → Prop}
  (hp : Poised session st created waiting r)
  (hr : ∀ j d, (j, d) ∈ rest → IsDescribed session st r.collection j d)
include hp hr

theorem reads_passed (hx : (r.collection.node x).state ≠ .included) :
    Reads session st x created rest r.collection r.collection where
  steady := hp.steady
  opened := hp.opened
  blank := hp.blank
  pending := hp.pending
  order := hp.order
  waiting _ hj he := .inr ⟨fun hjx => hx (hjx ▸ hj), hj, he⟩
  requeue _ h := h
  candid := hp.candid
  described := hr

theorem reads_failed {t : Collection} (e : NodeError) (hxr : x ≠ Graph.root)
    (hi : (r.collection.node x).state = .included)
    (ht : reelect session.rules (r.collection.collapse x e).2 (r.collection.collapse x e).1 =
      .ok () t) : Reads session st x created rest r.collection t := by
  have hs := hp.steady.sound
  have hx := (hs.live x hxr (.inr hi)).1
  have hst := hp.steady.collapse hx (.inr hi) e
  have hm : Moves session.rules (told session st) Graph.root (r.collection.collapse x e) (t, []) :=
    Moves.of_reelect ht
  have hk₁ : Keeps Graph.root r.collection (r.collection.collapse x e).1 :=
    .collapse hp.steady hx (.inr hi) _
  have hk₂ : Keeps Graph.root (r.collection.collapse x e).1 t := .of_moves hm hst
  have hk := hk₁.trans hk₂
  have hrest : Rests r.collection t := (Rests.collapse hs (.inr hi) _).trans (.of_reelect ht hst)
  have hopen := hk.opened.trans hp.opened
  exact {
    steady := hm.steady hst
    opened := hopen
    blank := hk.isBlank hp.blank fun hroot => by
      have h := (hk.pending _ hroot).1
      rw [hs.root_included] at h
      cases h
    pending := fun j hj => hp.pending j (hk.pending j hj).1
    order := hp.order.of_version hk.size.ge fun i hi => hrest.version i ▸ hi
    waiting j hj he := by
      have hjr : j ≠ Graph.root := by
        rintro rfl
        rw [hopen] at he
        cases he
      obtain hq | hjr' | ⟨hj₁, he₁⟩ := hk₂.waiting j hj he
      · exact .inl hq
      · exact absurd hjr' hjr
      · have hjx : j ≠ x := by
          rintro rfl
          rw [state_collapse hs hx (.inr hi)] at hj₁
          cases hj₁
        obtain hq | hjr' | hw := hk₁.waiting j hj₁ he₁
        · exact .inl (hk₂.requeue j hq)
        · exact absurd hjr' hjr
        · exact .inr ⟨hjx, hw⟩
    requeue := hk.requeue
    candid := (hp.candid.collapse hs hx (.inr hi) e).moves hm hst
    described j d hm := by
      have hd := hr j d hm
      have hcoord : (t.node j).artifact.coordinate = (r.collection.node j).artifact.coordinate :=
        congrArg Site.coordinate (hk.site j)
      exact {
        lt_size := hk.size.symm ▸ hd.lt_size
        ne_root := hd.ne_root
        expanded := by
          have h := hd.expanded
          rw [Bool.eq_false_iff] at h ⊢
          exact fun he => h (hrest.expanded j he)
        describes := by
          rw [hcoord, hrest.version]
          exact hd.describes } }

theorem reads_expanded (d : Descriptor) (hxs : x < r.collection.graph.size)
    (hi : (r.collection.node x).state = .included) (hne : ∀ j d, (j, d) ∈ rest → j ≠ x) :
    Reads session st x (created ++ (r.collection.expand session.rules x d).1) rest r.collection
      (r.collection.expand session.rules x d).2 := by
  have hroot : Graph.root < r.collection.graph.size := hp.steady.sound.tree.size_pos
  exact {
    steady := hp.steady.expand hi d
    opened := by rw [expanded_expand hxs d hroot, hp.opened, Bool.or_true]
    blank := fun _ => blank_expand hxs d hp.blank
    pending j hj := by
      obtain ⟨-, hj⟩ | hc := pending_expand hxs d hj
      · exact List.mem_append_left _ (hp.pending j hj)
      · exact List.mem_append_right _ hc
    order := hp.order.expand hxs d
    waiting j hj he := by
      obtain ⟨hjs, hj⟩ := included_expand hxs d hj
      rw [expanded_expand hxs d hjs, Bool.or_eq_false_iff] at he
      exact .inr ⟨by simpa using he.1, hj, he.2⟩
    requeue := fun j hj => (requeue_expand hxs d).symm ▸ hj
    candid := hp.candid.expand hp.steady.sound hxs d
    described j e hm := by
      have hd := hr j e hm
      exact {
        lt_size := hd.lt_size.trans_le (size_le_expand hxs d)
        ne_root := hd.ne_root
        expanded := by
          rw [expanded_expand hxs d hd.lt_size, hd.expanded]
          simpa using hne j e hm
        describes := by
          rw [view_expand hxs d (fun n => n.artifact.coordinate) (fun _ => rfl) (fun _ _ => rfl)
            hd.lt_size, view_expand hxs d Node.version (fun _ => rfl) (fun _ _ => rfl) hd.lt_size]
          exact hd.describes } }

end Describe

theorem holds_describe {d : SourceAnswer Descriptor}
    {rest : List (NodeId × SourceAnswer Descriptor)} {level : List NodeId}
    (h : Holds session st (.describing ((x, d) :: rest) created) r)
    (hs : describe session x d r = .ok level r') :
    Holds session st (.describing rest (created ++ level)) r' := by
  obtain ⟨hread, hl⟩ := reading_of_describe hs
  obtain ⟨hp, hnodup, hr⟩ := h
  have hx := hr x d (List.mem_cons_self ..)
  have hrest (j e) (hm : (j, e) ∈ rest) := hr j e (List.mem_cons_of_mem _ hm)
  obtain ⟨hxr, hnd⟩ : x ∉ rest.map Prod.fst ∧ (rest.map Prod.fst).Nodup :=
    List.nodup_cons.mp hnodup
  have hreads : Reads session st x (created ++ level) rest r.collection r'.collection := by
    generalize r'.collection = t at hread
    cases hread with
    | passed hi => rw [List.append_nil]; exact reads_passed hp hrest hi
    | failed hi _ ht => rw [List.append_nil]; exact reads_failed hp hrest _ hx.ne_root hi ht
    | expanded hi =>
      exact reads_expanded hp hrest _ hx.lt_size hi fun j e hm hj =>
        hxr (hj ▸ List.mem_map_of_mem (f := Prod.fst) hm)
  have hpoised : Poised session st (created ++ level) (fun j => ∃ d, (j, d) ∈ rest) r' := {
    steady := hreads.steady
    later := hl ▸ hp.later
    opened := hreads.opened
    blank := hreads.blank
    pending := hreads.pending
    order := hreads.order
    waiting j hj he := by
      obtain hq | ⟨hjx, hj, he⟩ := hreads.waiting j hj he
      · exact .inl hq
      · obtain hq | ⟨e, hm⟩ := hp.waiting j hj he
        · exact .inl (hreads.requeue j hq)
        · obtain hm | hm := List.mem_cons.mp hm
          · exact absurd (congrArg Prod.fst hm) hjx
          · exact .inr ⟨e, hm⟩
    candid := hreads.candid }
  exact ⟨hpoised, hnd, hreads.described⟩

theorem holds_next (h : Holds session st (.describing [] created) r) :
    Holds session st (.level created) r := by
  obtain ⟨hp, -⟩ := h
  exact { hp with
    waiting := fun j hj he => (hp.waiting j hj he).imp_right fun ⟨_, hm⟩ => nomatch hm }

end Mediation.Run
