import Mediation.Proofs.Collection.Facing
import Mediation.Proofs.Collection.Origin

/-! # What is told of losers

Events are never taken back, and every loser is told of, as is every node that becomes part of
the result. So a loser that was revived can be read off the events.
-/

namespace Mediation

namespace Event

variable {es ds : List Event} {trail : Trail}

theorem revive_append_left (h : revive es trail = true) : revive (es ++ ds) trail = true := by
  induction es with
  | nil => cases h
  | cons e es ih =>
    unfold revive at h ih ⊢
    rw [List.cons_append, List.dropWhile_cons]
    rw [List.dropWhile_cons] at h
    split
    · rename_i he
      rw [if_pos he] at h
      exact ih h
    · rename_i he
      rw [if_neg he] at h
      rw [← List.cons_append, List.any_append, h, Bool.true_or]

/-- An artifact that has lost a conflict and becomes part of the result later on is revived. -/
theorem revive_append (ho : ∃ e ∈ es, e.omits trail = true)
    (hi : ∃ e ∈ ds, e.includes trail = true) : revive (es ++ ds) trail = true := by
  obtain ⟨e, he, heo⟩ := ho
  have hi : ds.any (·.includes trail) = true := List.any_eq_true.mpr hi
  induction es with
  | nil => cases he
  | cons d es ih =>
    unfold revive at ih ⊢
    rw [List.cons_append, List.dropWhile_cons]
    split
    · rename_i hd
      refine ih ((List.mem_cons.mp he).resolve_left ?_)
      rintro rfl
      simp [heo] at hd
    · rw [← List.cons_append, List.any_append, hi, Bool.or_true]

end Event

namespace Collection

variable {rules : Rules} {ev : Evidence} {s t u : Collection} {E : Finset ℕ} {i j w x : ℕ}
  {k : Key} {d : Descriptor}

instance (s : Collection) (k : Key) : Decidable (s.HasRevived k) :=
  inferInstanceAs <| Decidable <| ∃ j < s.graph.size, (s.node j).key = k ∧
    Event.revive s.events.toList (s.node j).artifact.trail = true

/-- A change after which all nodes have their sites and all events are still told. -/
structure Tells (s t : Collection) : Prop where
  size : t.graph.size = s.graph.size
  events : s.events.toList <+: t.events.toList
  site : ∀ j : ℕ, (t.node j).site = (s.node j).site

namespace Tells

theorem refl (s : Collection) : Tells s s := ⟨rfl, List.prefix_rfl, fun _ => rfl⟩

theorem trans (h : Tells s t) (h' : Tells t u) : Tells s u :=
  ⟨h'.size.trans h.size, h.events.trans h'.events, fun j => (h'.site j).trans (h.site j)⟩

theorem update {f : Node → Node} (hf : ∀ n, (f n).site = n.site) (s : Collection) (i : ℕ) :
    Tells s (s.update i f) :=
  ⟨Graph.size_update _ _ _, List.prefix_rfl, view_update Node.site hf s i⟩

theorem emit (s : Collection) (e : Event) : Tells s (s.emit e) :=
  ⟨rfl, by simp [Collection.emit], fun _ => rfl⟩

theorem foldl {α : Type} {step : Collection → α → Collection}
    (hs : ∀ (s : Collection) (a : α), Tells s (step s a)) (as : List α) (s : Collection) :
    Tells s (as.foldl step s) := by
  induction as generalizing s with
  | nil => exact refl s
  | cons a as ih => exact (hs s a).trans (ih _)

theorem select (s : Collection) (i : NodeId) (v : Version) : Tells s (s.select i v) := by
  apply update
  intro _; rfl

theorem constrain (s : Collection) (i : NodeId) (c : Constraint) : Tells s (s.constrain i c) := by
  apply update
  intro _; rfl

theorem accept (s : Collection) (i : NodeId) : Tells s (s.accept i) := by
  refine .trans ?_ (emit _ _)
  apply update
  intro _; rfl

theorem enqueue (s : Collection) (i : NodeId) : Tells s (s.enqueue i) := by
  unfold Collection.enqueue
  split
  · exact refl s
  · exact ⟨rfl, List.prefix_rfl, fun _ => rfl⟩

theorem redirect (s : Collection) (k : Key) (old new : NodeId) :
    Tells s (s.redirect k old new) :=
  foldl (fun s i => by apply update; intro _; rfl) _ s

theorem rescope (s : Collection) (i : NodeId) : Tells s (s.rescope i) := by
  unfold Collection.rescope
  dsimp only
  cases hs : (do
    let parent ← (s.node i).parent
    (s.node parent).artifact.scope.inherit (s.node i).declaredScope) with
  | none => exact refl s
  | some scope =>
    apply update
    intro _; rfl

theorem widenScope (s : Collection) (winner loser : NodeId) :
    Tells s (s.widenScope winner loser) := by
  unfold Collection.widenScope
  dsimp only
  split
  · exact refl s
  · split
    · exact emit s _
    · have he := emit s (.scopeWidened (s.node winner).artifact (s.node loser).artifact.scope)
      refine (he.trans ?_).trans (foldl rescope _ _)
      apply update
      intro _; rfl

theorem disableBelow (s : Collection) (i : NodeId) : Tells s (s.disableBelow i) :=
  foldl (fun s i => by apply update; intro _; rfl) _ s

theorem prune (s : Collection) (i : NodeId) : Tells s (s.prune i) := by
  have hf : Tells s (s.forget (s.graph.descendants i)) := ⟨rfl, List.prefix_rfl, fun _ => rfl⟩
  refine hf.trans ?_
  apply update
  intro _; rfl

theorem collapse (s : Collection) (i : NodeId) (e : NodeError) : Tells s (s.collapse i e).1 := by
  have h : Tells s ((s.update i fun n => { n with state := .failed }).report i e) := by
    refine .trans ?_ (t := s.update i fun n => { n with state := .failed })
      ⟨rfl, List.prefix_rfl, fun _ => rfl⟩
    apply update
    intro _; rfl
  unfold Collection.collapse
  dsimp only
  split
  · split
    · exact h.trans (disableBelow _ i)
    · exact h
  · exact h

theorem rebase (s : Collection) (i : NodeId) (v : Version) : Tells s (s.rebase i v).1 := by
  unfold Collection.rebase
  dsimp only
  split
  · exact (((select s i v).trans (disableBelow _ i)).trans (prune _ i)).trans (enqueue _ i)
  · exact select s i v

theorem trail (h : Tells s t) (j : ℕ) :
    (t.node j).artifact.trail = (s.node j).artifact.trail :=
  congrArg Site.trail (h.site j)

end Tells

theorem IsTold.of_tells (h : s.IsTold j) (ht : Tells s t) : t.IsTold j := by
  obtain ⟨e, he, hi⟩ := h
  exact ⟨e, ht.events.subset he, ht.trail j ▸ hi⟩

theorem IsRevived.of_tells (h : s.IsRevived j) (ht : Tells s t) : t.IsRevived j := by
  obtain ⟨ds, hds⟩ := ht.events
  unfold IsRevived
  rw [ht.trail, ← hds]
  exact Event.revive_append_left h

theorem isTold_emit (s : Collection) (i : NodeId) (a : Artifact) :
    (s.emit (.omittedForConflict (s.node i).artifact a)).IsTold i :=
  ⟨.omittedForConflict (s.node i).artifact a, by simp [emit], beq_self_eq_true _⟩

theorem isRevived_accept (h : s.IsTold i) : (s.accept i).IsRevived i := by
  have ht : Tells s (s.update i fun n => { n with state := .included, kept := none }) := by
    apply Tells.update
    intro _; rfl
  unfold IsRevived accept
  rw [node_emit, ht.trail, emit, Array.toList_push]
  exact Event.revive_append h ⟨_, List.mem_singleton_self _, beq_iff_eq.mpr (ht.trail i)⟩

theorem tells_yieldTo (s : Collection) (w x : NodeId) :
    Tells s (s.yieldTo w x) ∧ (s.yieldTo w x).IsTold x := by
  have h : Tells s (s.update x fun n =>
      { n with state := .omittedForConflict, kept := some w }) := by
    apply Tells.update
    intro _; rfl
  unfold yieldTo
  exact ⟨(h.trans (.emit _ _)).trans (.widenScope _ w x),
    (isTold_emit _ x _).of_tells (.widenScope _ w x)⟩

theorem tells_displace (s : Collection) (k : Key) (i x : NodeId) :
    Tells s (s.displace k i x).1 ∧ (s.displace k i x).1.IsTold i := by
  have h : Tells s (s.update i fun n =>
      { n with state := .omittedForConflict, kept := some x }) := by
    apply Tells.update
    intro _; rfl
  have hnext (u : Collection) : Tells u (((u.accept x).redirect k i x).widenScope x i) :=
    ((Tells.accept u x).trans (.redirect _ k i x)).trans (.widenScope _ x i)
  unfold displace
  dsimp only
  split
  · have hdown (u : Collection) : Tells u ((((u.accept x).redirect k i x).widenScope x
        i).disableBelow i) := (hnext u).trans (.disableBelow _ i)
    exact ⟨(h.trans (.emit _ _)).trans (hdown _), (isTold_emit _ i _).of_tells (hdown _)⟩
  · exact ⟨(h.trans (.emit _ _)).trans (hnext _), (isTold_emit _ i _).of_tells (hnext _)⟩

theorem tells_revive (s : Collection) (w : NodeId) (cs : List NodeId) :
    Tells s (s.revive w cs) ∧ (s.IsTold w → (s.revive w cs).IsRevived w) := by
  have h : Tells s (cs.foldl (fun s c => s.update c fun n => { n with kept := some w }) s) :=
    .foldl (fun s i => by apply Tells.update; intro _; rfl) _ s
  have hnext {u : Collection} (hu : Tells s u) : Tells s ((u.accept w).enqueue w) ∧
      (s.IsTold w → ((u.accept w).enqueue w).IsRevived w) :=
    ⟨(hu.trans (.accept u w)).trans (.enqueue _ w),
      fun ht => (isRevived_accept (ht.of_tells hu)).of_tells (.enqueue _ w)⟩
  unfold revive
  dsimp only
  split
  · exact hnext (h.trans (.prune _ w))
  · exact hnext h

theorem Move.tells {a b : Situation} (m : Move rules ev x a b) : Tells a.1 b.1 := by
  cases m with
  | tell e => exact .emit _ e
  | choose => exact .select _ _ _
  | tighten => exact .constrain _ _ _
  | retain => exact .constrain _ _ _
  | shift => exact (Tells.constrain _ _ _).trans (.rebase _ _ _)
  | abandon e => exact (Tells.constrain _ _ _).trans (.collapse _ _ e)
  | reject e => exact .collapse _ _ e
  | seat => exact .accept _ _
  | yield => exact (tells_yieldTo _ _ _).1
  | displace => exact (tells_displace _ _ _ _).1
  | lose e => exact .collapse _ _ e
  | revive => exact (tells_revive _ _ _).1
  | skip => exact .refl _

/-- A newcomer that is still in play after it has won is part of the result. -/
theorem included_displace (hs : s.Sound) (hp : (s.node x).state = .pending)
    (hw : s.winner? (s.node x).key = some i)
    (hx : (s.displace (s.node x).key i x).1.InPlay x) :
    ((s.displace (s.node x).key i x).1.node x).state = .included := by
  have hxc := Steady.pending_contender hs hp
  obtain ⟨hi, -, hii⟩ := of_winner?_eq_some hw
  have hne : x ≠ i := by
    rintro rfl
    rw [hp] at hii
    cases hii
  have ha := agrees_displace hs.tree (hs.lt_size_of_contender hi) (hs.lt_size_of_contender hxc)
    hne (hs.fresh i) (s.node x).key hp
  obtain ⟨-, p, hpar, hpi⟩ := hx
  split at ha
  · rename_i hm
    rw [ha.parent, view_topple Node.parent fun _ _ => rfl] at hpar
    rw [ha.state] at hpi
    obtain ⟨hpne, hpd, -⟩ := hs.of_live_topple hi (by decide) (by decide) (.inr hpi)
    obtain ⟨q, hq, hmq⟩ := hs.contender x hxc
    obtain rfl : q = p := Option.some.inj (hq.symm.trans hpar)
    exact absurd (hs.parent_of_descendant hm hmq) (not_or.mpr ⟨hpne, hpd⟩)
  · rw [ha.state, node_accept, size_topple, if_pos ⟨rfl, hs.lt_size_of_contender hxc⟩]

/-- What may become of the place of a node in play. -/
inductive Turns (ev : Evidence) (s t : Collection) (j : ℕ) : Prop
  | stays (h : (t.node j).state = (s.node j).state)
  | sits (hp : (s.node j).state = .pending) (hb : (s.node j).IsBacked ev)
      (h : (t.node j).state = .included)
  | falls (hl : (s.node j).state = .pending ∧ (s.node j).IsBacked ev ∨
        (s.node j).state = .included) (ht : t.IsTold j)
      (h : (t.node j).state = .omittedForConflict)
  | rises (ho : (s.node j).state = .omittedForConflict) (hr : s.IsTold j → t.IsRevived j)
      (h : (t.node j).state = .included)
  | fails (h : (t.node j).state = .failed)

theorem Fades.turns (h : Fades E s t) (hp : t.InPlay j) (hE : j ∈ E → Turns ev s t j) :
    Turns ev s t j := by
  by_cases hj : j ∈ E
  · exact hE hj
  · exact .stays (h.state hj hp)

theorem Fades.turns_of_self (h : Fades {i} s t) (hp : t.InPlay j) (hi : Turns ev s t i) :
    Turns ev s t j :=
  h.turns hp fun hj => Finset.mem_singleton.mp hj ▸ hi

theorem Move.turns {a b : Situation} (m : Move rules ev x a b) (h : Steady a)
    (hj : b.1.InPlay j) : Turns ev a.1 b.1 j := by
  have hs := h.sound
  cases m with
  | tell e => exact .stays rfl
  | choose => exact .stays ((sameShape_select _ _ _).state j)
  | tighten => exact .stays ((sameShape_constrain _ _ _).state j)
  | retain => exact .stays ((sameShape_constrain _ _ _).state j)
  | @shift s i c v hn =>
    exact (hn.fades_shift hs v).turns_of_self hj (.stays (hn.state_shift hs v))
  | abandon e hn =>
    exact (hn.fades_abandon hs e).turns_of_self hj (.fails (hn.state_abandon hs e))
  | reject e hp =>
    have hx := Steady.pending_contender hs hp
    exact (Fades.collapse hs hx (Finset.mem_singleton_self x) (.inl hp) e).turns_of_self hj
      (.fails (state_collapse hs hx (.inl hp) e))
  | seat hp hb =>
    have hx := Steady.pending_contender hs hp
    refine (Fades.accept hs hx (Finset.mem_singleton_self x) (hs.idle x hp)).turns_of_self hj
      (.sits hp hb ?_)
    rw [hs.accept_node hx, if_pos rfl]
  | @yield s i w hp hb =>
    exact (Fades.yieldTo hs hp (Finset.mem_singleton_self x) w).turns_of_self hj
      (.falls (.inl ⟨hp, hb⟩) (tells_yieldTo s w x).2 (Node.state_of_core (core_yieldTo hs hp w)))
  | @displace s i hp hb hw =>
    obtain ⟨-, -, hii⟩ := of_winner?_eq_some hw
    refine (Fades.displace hs hp hw (E := {i, x}) (by simp) (by simp)).turns hj fun hm => ?_
    rcases Finset.mem_insert.mp hm with rfl | hm
    · exact .falls (.inr hii) (tells_displace s _ j x).2
        (Node.state_of_core (core_displace hs hp hw).1)
    · obtain rfl := Finset.mem_singleton.mp hm
      exact .sits hp hb (included_displace hs hp hw hj)
  | lose e hr hi =>
    have hi := isIncluded_iff.mp hi
    have hx := (hs.live x hr (.inr hi)).1
    exact (Fades.collapse hs hx (Finset.mem_singleton_self x) (.inr hi) e).turns_of_self hj
      (.fails (state_collapse hs hx (.inr hi) e))
  | @revive s k ks w hv he =>
    have hw := mem_of_elect he
    exact (Fades.revive hs hw (Finset.mem_singleton_self w) (s.eligible k)).turns_of_self hj
      (.rises (mem_eligible.mp hw).2.2.1 (tells_revive s w (s.eligible k)).2
        (Node.state_of_core (core_revive hs hw (s.eligible k))))
  | skip => exact .stays rfl

theorem Turns.isRevived (h : Turns ev s t j) (hs : (s.node j).state = .omittedForConflict)
    (ht : (t.node j).state = .included) (hj : s.IsTold j) : t.IsRevived j := by
  cases h with
  | stays hst =>
    rw [hst, hs] at ht
    cases ht
  | sits hp =>
    rw [hs] at hp
    cases hp
  | falls _ _ ho =>
    rw [ho] at ht
    cases ht
  | rises _ hr => exact hr hj
  | fails hf =>
    rw [hf] at ht
    cases ht

def IsCandid (s : Collection) : Prop :=
  ∀ j : ℕ, s.InPlay j → (s.node j).state = .omittedForConflict → s.IsTold j

theorem isCandid_start (root : Coordinate) (v : Version) (pins : Management) :
    (start root v pins).IsCandid :=
  fun _ hj => absurd hj.1 List.not_mem_nil

theorem Moves.tells {a b : Situation} (m : Moves rules ev x a b) : Tells a.1 b.1 :=
  m.preserve (P := fun b => Tells a.1 b.1) (fun _ _ m hb => hb.trans m.tells) (.refl _)

theorem hasRevived_of_revive (hs : s.Sound) (hc : s.IsCandid) (hw : w ∈ s.eligible k)
    (cs : List NodeId) : (s.revive w cs).HasRevived (s.node w).key := by
  obtain ⟨ht, hr⟩ := tells_revive s w cs
  obtain ⟨hwc, -, hst, -, p, hp, hpi⟩ := mem_eligible.mp hw
  refine ⟨w, (hs.lt_size_of_contender hwc).trans_eq ht.size.symm, Node.key_of_site (ht.site w), ?_⟩
  exact hr (hc w ⟨hwc, p, hp, hpi⟩ hst)

namespace IsCandid

variable (h : s.IsCandid)
include h

theorem of_fades (hf : Fades {i} s t) (ht : Tells s t)
    (hi : (t.node i).state = .omittedForConflict → (s.node i).state = .omittedForConflict) :
    t.IsCandid := by
  intro j hj ho
  have hs : (s.node j).state = .omittedForConflict := by
    by_cases hji : j = i
    · subst hji
      exact hi ho
    · exact (hf.state (Finset.notMem_singleton.mpr hji) hj).symm.trans ho
  exact (h j (hf.inPlay j hj) hs).of_tells ht

theorem constrain (i : NodeId) (c : Constraint) : (s.constrain i c).IsCandid :=
  h.of_fades (.constrain (Finset.mem_singleton_self i) c) (.constrain s i c) fun ho =>
    ((sameShape_constrain s i c).state i).symm.trans ho

theorem collapse (hs : s.Sound) (hi : i ∈ s.contenders)
    (hl : (s.node i).state = .pending ∨ (s.node i).state = .included) (e : NodeError) :
    (s.collapse i e).1.IsCandid :=
  h.of_fades (.collapse hs hi (Finset.mem_singleton_self i) hl e) (.collapse s i e) fun ho =>
    absurd ((state_collapse hs hi hl e).symm.trans ho) (by decide)

theorem revive (hs : s.Sound) (hw : w ∈ s.eligible k) (cs : List NodeId) :
    (s.revive w cs).IsCandid :=
  h.of_fades (.revive hs hw (Finset.mem_singleton_self w) cs) (tells_revive s w cs).1 fun _ =>
    (mem_eligible.mp hw).2.2.1

end IsCandid

theorem IsCandid.move {a b : Situation} (h : a.1.IsCandid) (m : Move rules ev x a b)
    (hs : Steady a) : b.1.IsCandid := by
  intro j hj ho
  obtain ⟨E, hf⟩ := m.fades hs
  cases m.turns hs hj with
  | stays hst => exact (h j (hf.inPlay j hj) (hst.symm.trans ho)).of_tells m.tells
  | falls _ ht => exact ht
  | sits _ _ hst => exact absurd (hst.symm.trans ho) (by decide)
  | rises _ _ hst => exact absurd (hst.symm.trans ho) (by decide)
  | fails hst => exact absurd (hst.symm.trans ho) (by decide)

theorem IsCandid.moves {a b : Situation} (h : a.1.IsCandid) (m : Moves rules ev x a b)
    (hs : Steady a) : b.1.IsCandid :=
  m.preserve_of_steady (P := fun b => b.1.IsCandid) hs (fun _ _ m hs h => h.move m hs) h

theorem events_adopt (s : Collection) (p : NodeId) (c : Child) :
    s.events.toList <+: (s.adopt p c).2.events.toList := by
  unfold adopt
  dsimp only
  split <;> simp [emit]

theorem events_expand (rules : Rules) (s : Collection) (x : NodeId) (d : Descriptor) :
    s.events.toList <+: (s.expand rules x d).2.events.toList := by
  refine (sprouts_expand rules s x d).preserve
    (P := fun g => s.events.toList <+: g.2.2.events.toList) ?_ List.prefix_rfl
  rintro _ _ (⟨e⟩ | _ | @⟨e, ds, ids, t, c, hc⟩) h
  · exact h.trans (Tells.emit _ e).events
  · exact h
  · exact h.trans (events_adopt t x c)

/-- A change after which the nodes that there were have their sites and all events are still
told. -/
structure Extends (s t : Collection) : Prop where
  size : s.graph.size ≤ t.graph.size
  events : s.events.toList <+: t.events.toList
  site : ∀ j < s.graph.size, (t.node j).site = (s.node j).site

namespace Extends

theorem of_tells (h : Tells s t) : Extends s t := ⟨h.size.ge, h.events, fun j _ => h.site j⟩

theorem trans (h : Extends s t) (h' : Extends t u) : Extends s u where
  size := h.size.trans h'.size
  events := h.events.trans h'.events
  site j hj := (h'.site j (hj.trans_le h.size)).trans (h.site j hj)

theorem expand (rules : Rules) (hx : x < s.graph.size) (d : Descriptor) :
    Extends s (s.expand rules x d).2 where
  size := size_le_expand hx d
  events := events_expand rules s x d
  site _ hj := view_expand hx d Node.site (fun _ => rfl) (fun _ _ => rfl) hj

theorem trail (h : Extends s t) (hj : j < s.graph.size) :
    (t.node j).artifact.trail = (s.node j).artifact.trail :=
  congrArg Site.trail (h.site j hj)

end Extends

theorem IsTold.of_extends (h : s.IsTold j) (hj : j < s.graph.size) (he : Extends s t) :
    t.IsTold j := by
  obtain ⟨e, hm, hi⟩ := h
  exact ⟨e, he.events.subset hm, he.trail hj ▸ hi⟩

theorem HasRevived.of_extends (h : s.HasRevived k) (he : Extends s t) : t.HasRevived k := by
  obtain ⟨j, hj, hk, hr⟩ := h
  obtain ⟨ds, hds⟩ := he.events
  refine ⟨j, hj.trans_le he.size, (Node.key_of_site (he.site j hj)).trans hk, ?_⟩
  unfold IsRevived
  rw [he.trail hj, ← hds]
  exact Event.revive_append_left hr

theorem IsCandid.expand (h : s.IsCandid) (hs : s.Sound) (hx : x < s.graph.size)
    (d : Descriptor) : (s.expand rules x d).2.IsCandid := by
  intro j hj ho
  obtain ⟨hlt, hj, ho⟩ := inPlay_of_expand hx d hs hj ho (by decide)
  exact (h j hj ho).of_extends hlt (.expand rules hx d)

end Collection

end Mediation
