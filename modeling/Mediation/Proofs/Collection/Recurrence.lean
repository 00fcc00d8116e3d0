import Mediation.Proofs.Collection.Candor

/-! # Recurrences

A dependency closes a cycle if its coordinate is on the trail that it is found on. Whether it
does is settled when its node is created: such a node is no contender, so that no decision
reaches it, and nothing is ever attached below it.
-/

namespace Mediation

/-- Whether a node of an arena stands where its trail tells, and closes a cycle just if its
coordinate recurs on that trail. -/
structure Graph.IsTrailed (g : Graph) (i : NodeId) : Prop where
  below : ∃ p < i, (g.node i).parent = some p ∧ (g.node i).depth = (g.node p).depth + 1 ∧
    (g.node i).artifact.trail = (g.node p).artifact.trail ++ [(g.node i).artifact.coordinate]
  length : (g.node i).artifact.trail.length = (g.node i).depth + 1
  cycle : (g.node i).state = .omittedForCycle ↔
    (g.node i).artifact.coordinate ∈ (g.node i).artifact.trail.dropLast
  leaf : (g.node i).state = .omittedForCycle →
    (g.node i).children = [] ∧ ∀ c, (g.node c).parent ≠ some i
  distinct : (g.node i).state ≠ .omittedForCycle → (g.node i).artifact.trail.Nodup

namespace Collection

variable {rules : Rules} {ev : Evidence} {s t u : Collection} {i p x : ℕ} {st : NodeState}

def SameCycles (s t : Collection) : Prop :=
  ∀ j : ℕ, (t.node j).state = .omittedForCycle ↔ (s.node j).state = .omittedForCycle

namespace SameCycles

theorem trans (h : SameCycles s t) (h' : SameCycles t u) : SameCycles s u :=
  fun j => (h' j).trans (h j)

theorem of_state (h : ∀ j : ℕ, (t.node j).state = (s.node j).state) : SameCycles s t :=
  fun j => by rw [h]

theorem disabled (n : Node) : n.disabled.state = .omittedForCycle ↔ n.state = .omittedForCycle := by
  obtain ⟨_, _, _, _, _, st⟩ := n
  cases st <;> simp [Node.disabled, disabledState]

section Change

variable (hs : s.Sound) (hi : i ∈ s.contenders)
include hs hi

theorem topple (hn : (s.node i).state ≠ .omittedForCycle) (hst : st ≠ .omittedForCycle) :
    SameCycles s (s.topple i st) := by
  intro j
  rw [hs.topple_node hi]
  split
  · rename_i hj
    subst hj
    exact iff_of_false hst hn
  · split
    · exact disabled _
    · rfl

theorem detach : SameCycles s (s.detach i) := by
  intro j
  rw [hs.detach_node hi]
  split
  · rename_i hj
    rw [hj]
  · split
    · exact disabled _
    · rfl

theorem accept (hn : (s.node i).state ≠ .omittedForCycle) : SameCycles s (s.accept i) := by
  intro j
  rw [hs.accept_node hi]
  split
  · rename_i hj
    subst hj
    simp [hn]
  · rfl

theorem collapse (hl : (s.node i).state = .pending ∨ (s.node i).state = .included)
    (e : NodeError) : SameCycles s (s.collapse i e).1 := by
  have hn : (s.node i).state ≠ .omittedForCycle := by
    rcases hl with h | h <;> simp [h]
  exact (topple hs hi hn (by decide)).trans
    (of_state (agrees_collapse (Steady.children_of_fate hs hl) e).state)

theorem rebase (v : Version) : SameCycles s (s.rebase i v).1 := by
  have hv := sameShape_select s i v
  have hd : SameCycles (s.select i v) ((s.select i v).detach i) := detach (hv.sound hs) hi
  exact ((of_state hv.state).trans hd).trans
    (of_state (agrees_rebase hs.tree (hs.lt_size_of_contender hi) (hs.fresh i) v).state)

end Change

theorem displace (hs : s.Sound) (hp : (s.node x).state = .pending)
    (hw : s.winner? (s.node x).key = some i) :
    SameCycles s (s.displace (s.node x).key i x).1 := by
  have hx := Steady.pending_contender hs hp
  obtain ⟨hi, -, hii⟩ := of_winner?_eq_some hw
  have hne : x ≠ i := by
    rintro rfl
    rw [hp] at hii
    cases hii
  have ht : SameCycles s (s.topple i .omittedForConflict) :=
    topple hs hi (by simp [hii]) (by decide)
  have ha := agrees_displace hs.tree (hs.lt_size_of_contender hi) (hs.lt_size_of_contender hx)
    hne (hs.fresh i) (s.node x).key hp
  split at ha
  · exact ht.trans (of_state ha.state)
  · have hsound : (s.topple i .omittedForConflict).Sound :=
      hs.topple hi (by decide) (by decide)
        fun _ => hs.versioned i (hs.ne_root_of_contender hi) hii
    have hxc : x ∈ (s.topple i .omittedForConflict).contenders := by rwa [contenders_topple]
    have hxs : ((s.topple i .omittedForConflict).node x).state ≠ .omittedForCycle := by
      rw [Ne, ht x, hp]
      decide
    exact (ht.trans (accept hsound hxc hxs)).trans (of_state ha.state)

theorem revive (hs : s.Sound) {k : Key} {w : ℕ} (hw : w ∈ s.eligible k) (cs : List NodeId) :
    SameCycles s (s.revive w cs) := by
  obtain ⟨hc, -, hst, -⟩ := mem_eligible.mp hw
  have hd := fun j => hs.not_live_below (i := w) (j := j) (by rw [hst]; decide)
  have hwd : w ∈ (s.detach w).contenders :=
    mem_contenders_detach.mpr ⟨hc, hs.not_mem_descendants⟩
  have hwn : ((s.detach w).node w).state ≠ .omittedForCycle := by
    rw [Ne, detach hs hc w, hst]
    decide
  exact ((detach hs hc).trans (accept (hs.detach hc) hwd hwn)).trans
    (of_state (agrees_revive hs.tree (hs.lt_size_of_contender hc) (hs.fresh w) hd cs).state)

end SameCycles

theorem Move.sameCycles {a b : Situation} (m : Move rules ev x a b) (h : Steady a) :
    SameCycles a.1 b.1 := by
  have hs := h.sound
  cases m with
  | tell e => exact .of_state (Agrees.emit _ e).state
  | choose => exact .of_state (sameShape_select _ _ _).state
  | tighten => exact .of_state (sameShape_constrain _ _ _).state
  | retain => exact .of_state (sameShape_constrain _ _ _).state
  | @shift s i c v hn =>
    have hc := sameShape_constrain s i c
    have hi : i ∈ (s.constrain i c).contenders := hn.rival.mem
    exact (SameCycles.of_state hc.state).trans (.rebase (hc.sound hs) hi v)
  | @abandon s i c e hn =>
    have hc := sameShape_constrain s i c
    have hi : i ∈ (s.constrain i c).contenders := hn.rival.mem
    exact (SameCycles.of_state hc.state).trans
      (.collapse (hc.sound hs) hi (.inr hn.state_constrain) e)
  | reject e hp => exact .collapse hs (Steady.pending_contender hs hp) (.inl hp) e
  | seat hp => exact .accept hs (Steady.pending_contender hs hp) (by simp [hp])
  | yield hp =>
    have hx := Steady.pending_contender hs hp
    exact (SameCycles.topple hs hx (by simp [hp]) (by decide)).trans
      (.of_state (agrees_yieldTo (hs.fresh x (hs.idle x hp))).state)
  | displace hp _ hw => exact .displace hs hp hw
  | lose e hr hi =>
    have hi := isIncluded_iff.mp hi
    exact .collapse hs (hs.live x hr (.inr hi)).1 (.inr hi) e
  | revive _ he => exact .revive hs (mem_of_elect he) _
  | skip => exact .of_state fun _ => rfl

/-- Whether a node closes a cycle just if its coordinate is on the trail of its parent, which
closes none. -/
structure Recurrent (s : Collection) : Prop where
  cycle : ∀ i p : ℕ, (s.node i).parent = some p → ((s.node i).state = .omittedForCycle ↔
    (s.node i).artifact.coordinate ∈ (s.node p).artifact.trail)
  parent : ∀ i p : ℕ, (s.node i).parent = some p → (s.node p).state ≠ .omittedForCycle

namespace Recurrent

theorem of_sites (h : s.Recurrent) (hs : ∀ j : ℕ, (t.node j).site = (s.node j).site)
    (hc : SameCycles s t) : t.Recurrent := by
  have hparent (j : ℕ) := Node.parent_of_site (hs j)
  have htrail (j : ℕ) := congrArg Site.trail (hs j)
  have hcoordinate (j : ℕ) := congrArg Site.coordinate (hs j)
  simp only [Node.site] at htrail hcoordinate
  exact {
    cycle i p hp := by
      rw [hc i, htrail, hcoordinate]
      exact h.cycle i p ((hparent i).symm.trans hp)
    parent i p hp := by
      rw [Ne, hc p]
      exact h.parent i p ((hparent i).symm.trans hp) }

theorem move {a b : Situation} (h : a.1.Recurrent) (m : Move rules ev x a b) (hs : Steady a) :
    b.1.Recurrent :=
  h.of_sites m.tells.site (m.sameCycles hs)

theorem opened (h : s.Recurrent) (d : Descriptor) : (s.opened x d).Recurrent :=
  h.of_sites (fun _ => view_opened d Node.site fun _ => rfl)
    (.of_state fun _ => view_opened d Node.state fun _ => rfl)

theorem adopt (h : s.Recurrent) (ht : s.graph.IsTree) (hx : (s.node x).state = .included)
    (c : Child) : (s.adopt x c).2.Recurrent := by
  have hxs : x < s.graph.size := Graph.lt_size_of_isIncluded (isIncluded_iff.mpr hx)
  have hview {α : Type} (v : Node → α) (hv : ∀ (n : Node) cs, v { n with children := cs } = v n)
      {j : ℕ} (hj : j ≠ s.graph.size) : v ((s.adopt x c).2.node j) = v (s.node j) :=
    view_adopt v hv hxs c hj
  have hold {i p : ℕ} (hi : i ≠ s.graph.size) (hp : ((s.adopt x c).2.node i).parent = some p) :
      (s.node i).parent = some p ∧ p ≠ s.graph.size := by
    rw [hview Node.parent (fun _ _ => rfl) hi] at hp
    exact ⟨hp, ((ht.lt_of_parent hp).trans (Graph.lt_size_of_parent hp)).ne⟩
  have hnew {p : ℕ} (hp : ((s.adopt x c).2.node s.graph.size).parent = some p) : x = p := by
    rw [node_adopt_size hxs] at hp
    exact Option.some.inj hp
  exact {
    cycle i p hp := by
      by_cases hi : i = s.graph.size
      · subst hi
        obtain rfl := hnew hp
        rw [node_adopt_size hxs, hview (fun n => n.artifact.trail) (fun _ _ => rfl) hxs.ne]
        simp [Graph.childNode, Artifact.pending, node]
      · obtain ⟨hp, hps⟩ := hold hi hp
        rw [hview Node.state (fun _ _ => rfl) hi,
          hview (fun n => n.artifact.coordinate) (fun _ _ => rfl) hi,
          hview (fun n => n.artifact.trail) (fun _ _ => rfl) hps]
        exact h.cycle i p hp
    parent i p hp := by
      by_cases hi : i = s.graph.size
      · subst hi
        obtain rfl := hnew hp
        rw [hview Node.state (fun _ _ => rfl) hxs.ne, hx]
        decide
      · obtain ⟨hp, hps⟩ := hold hi hp
        rw [hview Node.state (fun _ _ => rfl) hps]
        exact h.parent i p hp }

theorem sprouts {g : Growth} {d : Descriptor} (h : s.Recurrent) (ht : s.graph.IsTree)
    (hx : (s.node x).state = .included)
    (hg : Sprouts rules x (d.dependencies, [], s.opened x d) g) :
    g.2.2.graph.IsTree ∧ g.2.2.Recurrent := by
  refine (hg.preserve (P := fun g => (g.2.2.node x).state = .included ∧ g.2.2.graph.IsTree ∧
    g.2.2.Recurrent) ?_ ⟨(view_opened d Node.state fun _ => rfl).trans hx, ?_, h.opened d⟩).2
  · rintro _ _ (⟨e⟩ | _ | @⟨e, ds, ids, t, c, hc⟩) ⟨hi, ht, hr⟩
    · exact ⟨hi, ht, hr.cycle, hr.parent⟩
    · exact ⟨hi, ht, hr⟩
    · have hlt : x < t.graph.size := Graph.lt_size_of_isIncluded (isIncluded_iff.mpr hi)
      refine ⟨?_, graph_adopt t x c ▸ ht.attach hlt c, hr.adopt ht hi c⟩
      rw [view_adopt Node.state (fun _ _ => rfl) hlt c hlt.ne]
      exact hi
  · refine ht.of_sites (size_opened d) (fun j => view_opened d Node.site fun _ => rfl) fun j => ?_
    have hc : ((s.opened x d).node j).children = (s.node j).children :=
      view_opened d Node.children fun _ => rfl
    rw [children_eq, children_eq, hc]

variable (h : s.Recurrent) (ht : s.graph.IsTree) (hi : i < s.graph.size)
include h ht hi

theorem nodup (hn : (s.node i).state ≠ .omittedForCycle) : (s.node i).artifact.trail.Nodup := by
  induction i using Nat.strong_induction_on with
  | _ i ih =>
    by_cases hr : i = Graph.root
    · subst hr
      rw [node, ht.trail_root]
      exact List.nodup_singleton _
    · obtain ⟨p, hp, hpar⟩ := ht.parent_lt i hi hr
      have hnew : (s.node i).artifact.coordinate ∉ (s.node p).artifact.trail :=
        (h.cycle i p hpar).not.mp hn
      rw [node, ht.trail_eq i p hpar, ← List.concat_eq_append]
      exact (ih p hp (hp.trans hi) (h.parent i p hpar)).concat hnew

theorem isTrailed (hr : i ≠ Graph.root) : s.graph.IsTrailed i := by
  obtain ⟨p, hp, hpar⟩ := ht.parent_lt i hi hr
  have hnone (hc : (s.node i).state = .omittedForCycle) (j : ℕ) : (s.node j).parent ≠ some i :=
    fun hj => h.parent j i hj hc
  exact {
    below := ⟨p, hp, hpar, ht.depth_eq i p hpar, ht.trail_eq i p hpar⟩
    length := ht.trail_length i hi
    cycle := by
      rw [ht.trail_eq i p hpar, List.dropLast_concat]
      exact h.cycle i p hpar
    leaf := by
      refine fun hc => ⟨List.eq_nil_iff_forall_not_mem.mpr fun j hj => ?_, hnone hc⟩
      rw [← Graph.children_eq] at hj
      exact hnone hc j (ht.child i j hj).2
    distinct := h.nodup ht hi }

end Recurrent

end Collection

end Mediation
