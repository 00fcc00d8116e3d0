import Mediation.Proofs.Breadth.Spawn
import Mediation.Proofs.Collection.Origin

/-! # What an expanded node keeps

While a node is at hand none is expanded. So a node that is included and expanded afterwards was so
before, with the same version and children, and the same holds of all nodes above it.
-/

namespace Mediation

namespace Graph

variable {g h : Graph} {i j p : ℕ}

/-- The nodes on the way from a node up to the root, that one left out. -/
def path (g : Graph) (i : NodeId) : List NodeId := (i :: g.ancestors i).takeWhile (· != root)

@[simp] theorem path_root (g : Graph) : g.path root = [] := by simp [path]

theorem pinsBelow_eq (g : Graph) (i : NodeId) :
    g.pinsBelow i = (g.path i).map fun j => (g.node j).management := rfl

namespace IsTree

theorem path_of_parent (t : g.IsTree) (hi : i ≠ root) (hp : (g.node i).parent = some p) :
    g.path i = i :: g.path p := by
  have hb : (i != root) = true := bne_iff_ne.mpr hi
  simp [path, hb, t.ancestors_of_parent hp]

theorem le_of_mem_path (t : g.IsTree) (hi : i < g.size) (hj : j ∈ g.path i) : j ≤ i := by
  induction i using Nat.strong_induction_on with
  | _ i ih =>
    by_cases hr : i = root
    · rw [hr, path_root] at hj
      cases hj
    · obtain ⟨p, hlt, hp⟩ := t.parent_lt i hi hr
      rw [t.path_of_parent hr hp, List.mem_cons] at hj
      rcases hj with rfl | hj
      · exact le_rfl
      · exact (ih p hlt (hlt.trans hi) hj).trans hlt.le

theorem path_congr (tg : g.IsTree) (th : h.IsTree) (hi : i < g.size)
    (hp : ∀ k < g.size, (h.node k).parent = (g.node k).parent) : h.path i = g.path i := by
  induction i using Nat.strong_induction_on with
  | _ i ih =>
    by_cases hr : i = root
    · rw [hr, path_root, path_root]
    · obtain ⟨p, hlt, hpar⟩ := tg.parent_lt i hi hr
      rw [tg.path_of_parent hr hpar, th.path_of_parent hr ((hp i hi).trans hpar),
        ih p hlt (hlt.trans hi)]

end IsTree

end Graph

namespace Collection

variable {rules : Rules} {ev : Evidence} {s t : Collection} {E : Finset ℕ} {i j p x : ℕ}
  {d : Descriptor}

/-- The nodes above an included node are included, and expanded but perhaps for that one. -/
theorem Sound.of_mem_path (h : s.Sound) (hi : (s.node i).state = .included)
    (hj : j ∈ s.graph.path i) : j ≠ Graph.root ∧ j < s.graph.size ∧
      (s.node j).state = .included ∧ (j = i ∨ (s.node j).expanded = true) := by
  induction i using Nat.strong_induction_on with
  | _ i ih =>
    by_cases hr : i = Graph.root
    · rw [hr, Graph.path_root] at hj
      cases hj
    obtain ⟨p, hp, hpi, hc⟩ := h.parent_of_live hr (.inr hi)
    rw [h.tree.path_of_parent hr hp, List.mem_cons] at hj
    rcases hj with rfl | hj
    · exact ⟨hr, Graph.lt_size_of_parent hp, hi, .inl rfl⟩
    · obtain ⟨hjr, hlt, hji, hj⟩ := ih p (h.tree.lt_of_parent hp) hpi hj
      refine ⟨hjr, hlt, hji, .inr (hj.elim (fun hj => ?_) id)⟩
      rw [hj]
      by_contra hx
      rw [h.fresh p (Bool.eq_false_iff.mpr hx)] at hc
      cases hc

/-- Whether a node was included and expanded before a change, with the same version and the same
children. -/
structure Endures (s t : Collection) (j : ℕ) : Prop where
  included : (s.node j).state = .included
  expanded : (s.node j).expanded = true
  children : (t.node j).children = (s.node j).children
  version : (t.node j).version = (s.node j).version

theorem Endures.of_core (hi : (t.node j).state = .included) (hx : (t.node j).expanded = true)
    (hc : (t.node j).core = (s.node j).core) : Endures s t j where
  included := (Node.state_of_core hc).symm.trans hi
  expanded := (congrArg Node.expanded hc :).symm.trans hx
  children := (congrArg Node.children hc :)
  version := (congrArg Node.version hc :)

theorem Move.core_root {a b : Situation} (m : Move rules ev x a b) (h : Steady a) :
    (b.1.node Graph.root).core = (a.1.node Graph.root).core := by
  have hs := h.sound
  have hne {s : Collection} (hs : s.Sound) {i : ℕ} (hi : i ∈ s.contenders) : i ≠ Graph.root :=
    hs.ne_root_of_contender hi
  have hup {s : Collection} (hs : s.Sound) {i : ℕ} (hi : i ∈ s.contenders) (f : Node → Node) :
      (s.update i f).node Graph.root = s.node Graph.root := node_update_of_ne (hne hs hi)
  have htop {s : Collection} (hs : s.Sound) {i : ℕ} (hi : i ∈ s.contenders) (st : NodeState) :
      (s.topple i st).node Graph.root = s.node Graph.root :=
    hs.topple_of_not_mem hi (hne hs hi).symm hs.root_not_mem_descendants
  have hdet {s : Collection} (hs : s.Sound) {i : ℕ} (hi : i ∈ s.contenders) :
      (s.detach i).node Graph.root = s.node Graph.root := by
    rw [hs.detach_node hi, if_neg (hne hs hi).symm, if_neg hs.root_not_mem_descendants]
  have hcol {s : Collection} (hs : s.Sound) {i : ℕ} (hi : i ∈ s.contenders)
      (hl : (s.node i).state = .pending ∨ (s.node i).state = .included) (e : NodeError) :
      ((s.collapse i e).1.node Graph.root).core = (s.node Graph.root).core := by
    rw [(agrees_collapse (Steady.children_of_fate hs hl) e).core, htop hs hi]
  cases m with
  | tell => rfl
  | choose hp => exact congrArg Node.core (hup hs (Steady.pending_contender hs hp) _)
  | tighten hn => exact congrArg Node.core (hup hs (Steady.pending_contender hs hn.pending) _)
  | retain hn => exact congrArg Node.core (hup hs hn.rival.mem _)
  | @shift s i c v hn =>
    have hi := hn.rival.mem
    have hsc := (sameShape_constrain s i c).sound hs
    have hsv := (sameShape_select (s.constrain i c) i v).sound hsc
    have ha := agrees_rebase hsc.tree (hsc.lt_size_of_contender hi) (hsc.fresh i) v
    have h₁ := hdet hsv (i := i) hi
    have h₂ := hup hsc (i := i) hi fun n => { n with artifact := n.artifact.select v }
    have h₃ := hup hs hi fun n => { n with constraint := c }
    rw [ha.core, h₁]
    exact congrArg Node.core (h₂.trans h₃)
  | @abandon s i c e hn =>
    have hi := hn.rival.mem
    have h₁ := hcol ((sameShape_constrain s i c).sound hs) hi (.inr hn.state_constrain) e
    exact h₁.trans (congrArg Node.core (hup hs hi _))
  | reject e hp => exact hcol hs (Steady.pending_contender hs hp) (.inl hp) e
  | seat hp => exact congrArg Node.core (hup hs (Steady.pending_contender hs hp) _)
  | yield hp =>
    rw [(agrees_yieldTo (hs.fresh x (hs.idle x hp))).core, htop hs (Steady.pending_contender hs hp)]
  | @displace s i hp _ hw =>
    have hx := Steady.pending_contender hs hp
    obtain ⟨hi, -, hii⟩ := of_winner?_eq_some hw
    have hxi : x ≠ i := by
      rintro rfl
      rw [hp] at hii
      cases hii
    have ha := agrees_displace hs.tree (hs.lt_size_of_contender hi) (hs.lt_size_of_contender hx)
      hxi (hs.fresh i) (s.node x).key hp
    rw [ha.core]
    split
    · rw [htop hs hi]
    · rw [node_accept, if_neg fun h => hne hs hx h.1, htop hs hi]
  | lose e hr hi =>
    have hi := isIncluded_iff.mp hi
    exact hcol hs (hs.live x hr (.inr hi)).1 (.inr hi) e
  | @revive s k ks w hv he =>
    obtain ⟨hc, -, hst, -⟩ := mem_eligible.mp (mem_of_elect he)
    have hd := fun j => hs.not_live_below (i := w) (j := j) (by rw [hst]; decide)
    have ha := agrees_revive hs.tree (hs.lt_size_of_contender hc) (hs.fresh w) hd (s.eligible k)
    rw [ha.core, node_accept, if_neg fun h => hne hs hc h.1, hdet hs hc]
  | skip => rfl

/-- A node in play that is included and expanded after a move endures, if those do that the move
is about. -/
theorem Fades.endures (h : Fades E s t) (hs : t.Sound) (hr : j ≠ Graph.root)
    (hi : (t.node j).state = .included) (hx : (t.node j).expanded = true)
    (hE : j ∈ E → Endures s t j) : Endures s t j := by
  by_cases hj : j ∈ E
  · exact hE hj
  · exact .of_core hi hx (h.core j hj (hs.inPlay hr (.inr hi)))

theorem Move.endures {a b : Situation} (m : Move rules ev x a b) (h : Steady a)
    (hi : (b.1.node j).state = .included) (hx : (b.1.node j).expanded = true) :
    Endures a.1 b.1 j := by
  by_cases hr : j = Graph.root
  · subst hr
    exact .of_core hi hx (m.core_root h)
  have hs := h.sound
  have ht := (m.steady h).sound
  -- what becomes of the nodes that the move is about is a state or a lack of children
  have hstate {n : Node} {i : ℕ} {t : Collection} (hc : (t.node i).core = n.core)
      (hn : n.state ≠ .included) (hi : (t.node i).state = .included) : False :=
    hn ((Node.state_of_core hc).symm.trans hi)
  have hleaf {n : Node} {i : ℕ} {t : Collection} (hc : (t.node i).core = n.core)
      (hn : n.expanded = false) (hx : (t.node i).expanded = true) : False := by
    have he : (t.node i).expanded = n.expanded := (congrArg Node.expanded hc :)
    rw [hx, hn] at he
    cases he
  cases m with
  | tell => exact .of_core hi hx rfl
  | choose hp =>
    refine (Fades.select (Finset.mem_singleton_self x) _).endures ht hr hi hx fun hj => ?_
    obtain rfl := Finset.mem_singleton.mp hj
    rw [(sameShape_select _ _ _).state, hp] at hi
    cases hi
  | tighten hn =>
    refine (Fades.constrain (Finset.mem_singleton_self x) _).endures ht hr hi hx fun hj => ?_
    obtain rfl := Finset.mem_singleton.mp hj
    rw [(sameShape_constrain _ _ _).state, hn.pending] at hi
    cases hi
  | @retain s i c hn =>
    refine (Fades.constrain (Finset.mem_singleton_self i) c).endures ht hr hi hx fun hj => ?_
    obtain rfl := Finset.mem_singleton.mp hj
    have hshape := sameShape_constrain s j c
    refine ⟨(hshape.state j).symm.trans hi, (hshape.expanded j).symm.trans hx,
      hshape.children j, ?_⟩
    apply view_update Node.version
    intro _; rfl
  | @shift s i c v hn =>
    refine (hn.fades_shift hs v).endures ht hr hi hx fun hj => ?_
    obtain rfl := Finset.mem_singleton.mp hj
    exact (hleaf (hn.core_shift hs v) rfl hx).elim
  | @abandon s i c e hn =>
    refine (hn.fades_abandon hs e).endures ht hr hi hx fun hj => ?_
    obtain rfl := Finset.mem_singleton.mp hj
    exact (hstate (hn.core_abandon hs e) nofun hi).elim
  | reject e hp =>
    have hc := Steady.pending_contender hs hp
    refine (Fades.collapse hs hc (Finset.mem_singleton_self x) (.inl hp) e).endures ht hr hi hx
      fun hj => ?_
    obtain rfl := Finset.mem_singleton.mp hj
    exact (hstate (core_collapse hs hc (.inl hp) e) nofun hi).elim
  | seat hp =>
    have hc := Steady.pending_contender hs hp
    refine (Fades.accept hs hc (Finset.mem_singleton_self x) (hs.idle x hp)).endures ht hr hi hx
      fun hj => ?_
    obtain rfl := Finset.mem_singleton.mp hj
    rw [hs.accept_node hc, if_pos rfl] at hx
    exact absurd hx (Bool.eq_false_iff.mp (hs.idle j hp))
  | @yield s i w hp =>
    refine (Fades.yieldTo hs hp (Finset.mem_singleton_self x) w).endures ht hr hi hx fun hj => ?_
    obtain rfl := Finset.mem_singleton.mp hj
    exact (hstate (core_yieldTo hs hp w) nofun hi).elim
  | @displace s i hp _ hw =>
    obtain ⟨hci, st, -, hcx⟩ := core_displace hs hp hw
    refine (Fades.displace hs hp hw (E := {i, x}) (by simp) (by simp)).endures ht hr hi hx
      fun hj => ?_
    rcases Finset.mem_insert.mp hj with rfl | hj
    · exact (hstate hci nofun hi).elim
    · obtain rfl := Finset.mem_singleton.mp hj
      exact (hleaf hcx (hs.idle j hp) hx).elim
  | lose e hxr hxi =>
    have hxi := isIncluded_iff.mp hxi
    have hc := (hs.live x hxr (.inr hxi)).1
    refine (Fades.collapse hs hc (Finset.mem_singleton_self x) (.inr hxi) e).endures ht hr hi hx
      fun hj => ?_
    obtain rfl := Finset.mem_singleton.mp hj
    exact (hstate (core_collapse hs hc (.inr hxi) e) nofun hi).elim
  | @revive s k ks w hv he =>
    have hw := mem_of_elect he
    refine (Fades.revive hs hw (Finset.mem_singleton_self w) _).endures ht hr hi hx fun hj => ?_
    obtain rfl := Finset.mem_singleton.mp hj
    exact (hleaf (core_revive hs hw _) rfl hx).elim
  | skip => exact .of_core hi hx rfl

structure Retains (s t : Collection) : Prop where
  size : t.graph.size = s.graph.size
  site : ∀ j : ℕ, (t.node j).site = (s.node j).site
  management : ∀ j : ℕ, (t.node j).management = (s.node j).management
  endures : ∀ j : ℕ, (t.node j).state = .included → (t.node j).expanded = true → Endures s t j

namespace Retains

theorem of_agrees (h : s.Agrees t) : Retains s t where
  size := h.size
  site := h.site
  management j := (congrArg Node.management (h.core j) :)
  endures j hi hx := .of_core hi hx (h.core j)

theorem trans {u : Collection} (h : Retains s t) (h' : Retains t u) : Retains s u where
  size := h'.size.trans h.size
  site j := (h'.site j).trans (h.site j)
  management j := (h'.management j).trans (h.management j)
  endures j hi hx := by
    have h₂ := h'.endures j hi hx
    have h₁ := h.endures j h₂.included h₂.expanded
    exact ⟨h₁.included, h₁.expanded, h₂.children.trans h₁.children, h₂.version.trans h₁.version⟩

end Retains

theorem Move.retains {a b : Situation} (m : Move rules ev x a b) (h : Steady a) :
    Retains a.1 b.1 := by
  obtain ⟨E, hf⟩ := m.fades h
  exact ⟨hf.size, hf.site, hf.management, fun j hi hx => m.endures h hi hx⟩

theorem Moves.retains {a b : Situation} (m : Moves rules ev x a b) (h : Steady a) :
    Retains a.1 b.1 :=
  m.preserve_of_steady (P := fun b => Retains a.1 b.1) h
    (fun _ _ m hs hr => hr.trans (m.retains hs)) (.of_agrees (.refl a.1))

end Collection

end Mediation
