import Mathlib.Data.Finset.Basic
import Mediation.Proofs.Collection.Steady

/-! # Nodes in play

A contender is in play as long as its parent is included. While a node is at hand, no node
comes into play, and those that stay in play are what they were, but for one or two that
the change is about.
-/

namespace Mediation.Collection

variable {rules : Rules} {ev : Evidence} {s t u : Collection} {E : Finset ℕ} {i j x w : ℕ}
  {st : NodeState}

instance (s : Collection) (j : NodeId) : Decidable (s.InPlay j) :=
  decidable_of_iff (s.contenders.contains j && (s.node j).parent.any s.graph.isIncluded) <| by
    simp only [InPlay, Bool.and_eq_true, List.contains_iff_mem, Option.any_eq_true,
      isIncluded_iff]

theorem Sound.inPlay (h : s.Sound) (hr : j ≠ Graph.root)
    (hj : (s.node j).state = .pending ∨ (s.node j).state = .included) : s.InPlay j :=
  h.live j hr hj

theorem Sound.inPlay_of_pending (h : s.Sound) (hj : (s.node j).state = .pending) : s.InPlay j :=
  h.inPlay (h.ne_root_of_contender (Steady.pending_contender h hj)) (.inl hj)

theorem Sound.inPlay_of_rival (h : s.Sound) (hr : s.IsRival x i) : s.InPlay i :=
  h.inPlay (h.ne_root_of_contender hr.mem) (.inr (isIncluded_iff.mp hr.included))

/-- A change that brings no node into play, and of those that stay in play changes none but
the given ones, save in their scopes and notes. -/
structure Fades (E : Finset ℕ) (s t : Collection) : Prop where
  size : t.graph.size = s.graph.size
  site : ∀ j : ℕ, (t.node j).site = (s.node j).site
  management : ∀ j : ℕ, (t.node j).management = (s.node j).management
  inPlay : ∀ j : ℕ, t.InPlay j → s.InPlay j
  core : ∀ j ∉ E, t.InPlay j → (t.node j).core = (s.node j).core

namespace Fades

theorem trans (h : Fades E s t) (h' : Fades E t u) : Fades E s u where
  size := h'.size.trans h.size
  site j := (h'.site j).trans (h.site j)
  management j := (h'.management j).trans (h.management j)
  inPlay j hj := h.inPlay j (h'.inPlay j hj)
  core j hE hj := (h'.core j hE hj).trans (h.core j hE (h'.inPlay j hj))

theorem state (h : Fades E s t) (hj : j ∉ E) (hp : t.InPlay j) :
    (t.node j).state = (s.node j).state :=
  Node.state_of_core (h.core j hj hp)

theorem of_agrees (h : s.Agrees t) : Fades E s t where
  size := h.size
  site := h.site
  management j := (congrArg Node.management (h.core j) :)
  inPlay j hj := by
    obtain ⟨hc, p, hp, hpi⟩ := hj
    exact ⟨h.contenders ▸ hc, p, (h.parent j).symm.trans hp, (h.state p).symm.trans hpi⟩
  core j _ _ := h.core j

theorem refl (E : Finset ℕ) (s : Collection) : Fades E s s := of_agrees (.refl s)

/-- A change of one node that leaves its place, its state and its pins alone. -/
theorem update {f : Node → Node} (hE : i ∈ E) (hs : ∀ n, (f n).site = n.site)
    (hst : ∀ n, (f n).state = n.state) (hm : ∀ n, (f n).management = n.management) :
    Fades E s (s.update i f) where
  size := Graph.size_update _ _ _
  site := view_update Node.site hs s i
  management := view_update Node.management hm s i
  inPlay j hj := by
    obtain ⟨hc, p, hp, hpi⟩ := hj
    refine ⟨hc, p, ?_, (view_update Node.state hst s i p).symm.trans hpi⟩
    rwa [Node.parent_of_site (view_update Node.site hs s i j)] at hp
  core j hj _ := by
    rw [node_update_of_ne]
    rintro rfl
    exact hj hE

theorem select (hE : i ∈ E) (v : Version) : Fades E s (s.select i v) := by
  apply update hE <;> intro _ <;> rfl

theorem constrain (hE : i ∈ E) (c : Constraint) : Fades E s (s.constrain i c) := by
  apply update hE <;> intro _ <;> rfl

section Change

variable (hs : s.Sound) (hi : i ∈ s.contenders) (hE : i ∈ E)
include hs hi hE

theorem topple (hp : st ≠ .pending) (hn : st ≠ .included) : Fades E s (s.topple i st) where
  size := size_topple
  site j := view_topple Node.site fun _ _ => rfl
  management j := view_topple Node.management fun _ _ => rfl
  inPlay j hj := by
    obtain ⟨hc, p, hp', hpi⟩ := hj
    obtain ⟨-, -, he⟩ := hs.of_live_topple hi hp hn (.inr hpi)
    rw [contenders_topple] at hc
    rw [view_topple Node.parent fun _ _ => rfl] at hp'
    exact ⟨hc, p, hp', he ▸ hpi⟩
  core j hj hpl := by
    obtain ⟨hc, p, hp', hpi⟩ := hpl
    obtain ⟨hpne, hpd, -⟩ := hs.of_live_topple hi hp hn (.inr hpi)
    rw [contenders_topple] at hc
    rw [view_topple Node.parent fun _ _ => rfl] at hp'
    obtain ⟨q, hq, hm⟩ := hs.contender j hc
    obtain rfl : q = p := Option.some.inj (hq.symm.trans hp')
    have hd : j ∉ s.graph.descendants i := fun hd =>
      (hs.parent_of_descendant hd hm).elim hpne hpd
    have hji : j ≠ i := fun he => hj (he ▸ hE)
    rw [hs.topple_of_not_mem hi hji hd]

theorem detach : Fades E s (s.detach i) where
  size := size_detach
  site j := view_detach Node.site (fun _ _ => rfl) fun _ => rfl
  management j := view_detach Node.management (fun _ _ => rfl) fun _ => rfl
  inPlay j hj := by
    obtain ⟨hc, p, hp, hpi⟩ := hj
    have hd := hs.not_mem_of_live_detach hi (.inr hpi)
    rw [view_detach Node.parent (fun _ _ => rfl) fun _ => rfl] at hp
    rw [hs.detach_state_of_not_mem hi hd] at hpi
    exact ⟨(mem_contenders_detach.mp hc).1, p, hp, hpi⟩
  core j hj hpl := by
    have hji : j ≠ i := fun he => hj (he ▸ hE)
    rw [hs.detach_node hi, if_neg hji, if_neg (mem_contenders_detach.mp hpl.1).2]

theorem accept (hx : (s.node i).expanded = false) : Fades E s (s.accept i) where
  size := size_accept
  site j := view_accept Node.site fun _ => rfl
  management j := view_accept Node.management fun _ => rfl
  inPlay j hj := by
    obtain ⟨hc, p, hp, hpi⟩ := hj
    rw [contenders_accept] at hc
    rw [view_accept Node.parent fun _ => rfl] at hp
    obtain ⟨q, hq, hm⟩ := hs.contender j hc
    obtain rfl : q = p := Option.some.inj (hq.symm.trans hp)
    have hqi : q ≠ i := by
      rintro rfl
      rw [hs.fresh q hx] at hm
      cases hm
    rw [hs.accept_node hi, if_neg hqi] at hpi
    exact ⟨hc, q, hp, hpi⟩
  core j hj _ := by
    have hji : j ≠ i := fun he => hj (he ▸ hE)
    rw [hs.accept_node hi, if_neg hji]

end Change

theorem collapse (hs : s.Sound) (hi : i ∈ s.contenders) (hE : i ∈ E)
    (hl : (s.node i).state = .pending ∨ (s.node i).state = .included) (e : NodeError) :
    Fades E s (s.collapse i e).1 :=
  (topple hs hi hE (by decide) (by decide)).trans
    (of_agrees (agrees_collapse (Steady.children_of_fate hs hl) e))

theorem rebase (hs : s.Sound) (hi : i ∈ s.contenders) (hE : i ∈ E) (v : Version) :
    Fades E s (s.rebase i v).1 := by
  have hv := (sameShape_select s i v).sound hs
  refine ((select hE v).trans (detach hv hi hE)).trans (of_agrees ?_)
  exact agrees_rebase hs.tree (hs.lt_size_of_contender hi) (hs.fresh i) v

theorem yieldTo (hs : s.Sound) (hp : (s.node x).state = .pending) (hE : x ∈ E) (w : NodeId) :
    Fades E s (s.yieldTo w x) :=
  (topple hs (Steady.pending_contender hs hp) hE (by decide) (by decide)).trans
    (of_agrees (agrees_yieldTo (hs.fresh x (hs.idle x hp))))

theorem revive (hs : s.Sound) {k : Key} (hw : w ∈ s.eligible k) (hE : w ∈ E)
    (cs : List NodeId) : Fades E s (s.revive w cs) := by
  obtain ⟨hc, -, hst, -⟩ := mem_eligible.mp hw
  have hd := fun j => hs.not_live_below (i := w) (j := j) (by rw [hst]; decide)
  have hwd : w ∈ (s.detach w).contenders :=
    mem_contenders_detach.mpr ⟨hc, hs.not_mem_descendants⟩
  have ha := accept (hs.detach hc) hwd hE (hs.expanded_detach hc)
  refine ((detach hs hc hE).trans ha).trans (of_agrees ?_)
  exact agrees_revive hs.tree (hs.lt_size_of_contender hc) (hs.fresh w) hd cs

theorem displace (hs : s.Sound) (hp : (s.node x).state = .pending)
    (hw : s.winner? (s.node x).key = some i) (hE : i ∈ E) (hxE : x ∈ E) :
    Fades E s (s.displace (s.node x).key i x).1 := by
  have hx := Steady.pending_contender hs hp
  obtain ⟨hi, -, hii⟩ := of_winner?_eq_some hw
  have hne : x ≠ i := by
    rintro rfl
    rw [hp] at hii
    cases hii
  have ha := agrees_displace hs.tree (hs.lt_size_of_contender hi) (hs.lt_size_of_contender hx)
    hne (hs.fresh i) (s.node x).key hp
  have ht : (s.topple i .omittedForConflict).Sound :=
    hs.topple hi (by decide) (by decide)
      fun _ => hs.versioned i (hs.ne_root_of_contender hi) hii
  have hf : Fades E s (s.topple i .omittedForConflict) := topple hs hi hE (by decide) (by decide)
  split at ha
  · exact hf.trans (of_agrees ha)
  · have hxc : x ∈ (s.topple i .omittedForConflict).contenders := by rwa [contenders_topple]
    have hxl : ((s.topple i .omittedForConflict).node x).expanded = false := by
      rw [view_topple Node.expanded fun _ _ => rfl, hs.idle x hp]
    exact (hf.trans (accept ht hxc hxE hxl)).trans (of_agrees ha)

end Fades

theorem core_rebase (hs : s.Sound) (hi : i ∈ s.contenders) (v : Version) :
    ((s.rebase i v).1.node i).core = ({ s.node i with
      artifact := (s.node i).artifact.select v
      children := []
      expanded := false }).core := by
  have hlt := hs.lt_size_of_contender hi
  have hnode : (s.select i v).node i =
      { s.node i with artifact := (s.node i).artifact.select v } := node_update_self hlt
  have hiv : i ∈ (s.select i v).contenders := hi
  rw [(agrees_rebase hs.tree hlt (hs.fresh i) v).core,
    ((sameShape_select s i v).sound hs).detach_node hiv, if_pos rfl, hnode]

theorem core_collapse (hs : s.Sound) (hi : i ∈ s.contenders)
    (hl : (s.node i).state = .pending ∨ (s.node i).state = .included) (e : NodeError) :
    ((s.collapse i e).1.node i).core = ({ s.node i with state := .failed }).core := by
  rw [(agrees_collapse (Steady.children_of_fate hs hl) e).core, hs.topple_node hi, if_pos rfl]

theorem core_yieldTo (hs : s.Sound) (hp : (s.node x).state = .pending) (w : NodeId) :
    ((s.yieldTo w x).node x).core = ({ s.node x with state := .omittedForConflict }).core := by
  rw [(agrees_yieldTo (hs.fresh x (hs.idle x hp))).core,
    hs.topple_node (Steady.pending_contender hs hp), if_pos rfl]

theorem core_revive (hs : s.Sound) {k : Key} (hw : w ∈ s.eligible k) (cs : List NodeId) :
    ((s.revive w cs).node w).core = ({ s.node w with
      state := .included
      children := []
      expanded := false }).core := by
  obtain ⟨hc, -, hst, -⟩ := mem_eligible.mp hw
  have hd := fun j => hs.not_live_below (i := w) (j := j) (by rw [hst]; decide)
  have hwd : w ∈ (s.detach w).contenders :=
    mem_contenders_detach.mpr ⟨hc, hs.not_mem_descendants⟩
  rw [(agrees_revive hs.tree (hs.lt_size_of_contender hc) (hs.fresh w) hd cs).core,
    (hs.detach hc).accept_node hwd, if_pos rfl, hs.detach_node hc, if_pos rfl]
  rfl

/-- After a displacement the winner so far is a loser, and the newcomer is the winner, or out
of play if it is below the other one. -/
theorem core_displace (hs : s.Sound) (hp : (s.node x).state = .pending)
    (hw : s.winner? (s.node x).key = some i) :
    ((s.displace (s.node x).key i x).1.node i).core =
        ({ s.node i with state := .omittedForConflict }).core ∧
      ∃ st : NodeState, (st = .included ∨ st = .omittedForConflict) ∧
        ((s.displace (s.node x).key i x).1.node x).core = ({ s.node x with state := st }).core := by
  have hx := Steady.pending_contender hs hp
  obtain ⟨hi, -, hii⟩ := of_winner?_eq_some hw
  have hne : x ≠ i := by
    rintro rfl
    rw [hp] at hii
    cases hii
  have ha := agrees_displace hs.tree (hs.lt_size_of_contender hi) (hs.lt_size_of_contender hx)
    hne (hs.fresh i) (s.node x).key hp
  split at ha
  · rename_i hm
    refine ⟨?_, .omittedForConflict, .inr rfl, ?_⟩
    · rw [ha.core, hs.topple_node hi, if_pos rfl]
    · rw [ha.core, hs.topple_node hi, if_neg hne, if_pos hm, Node.disabled, hp]
      rfl
  · rename_i hm
    refine ⟨?_, .included, .inl rfl, ?_⟩
    · rw [ha.core, node_accept, if_neg fun h => hne h.1, hs.topple_node hi, if_pos rfl]
    · rw [ha.core, node_accept, size_topple, if_pos ⟨rfl, hs.lt_size_of_contender hx⟩,
        hs.topple_of_not_mem hi hne hm]
      rfl

namespace IsNarrowing

variable {c : Constraint} (hn : s.IsNarrowing x i c) (hs : s.Sound)
include hn

theorem state_constrain : ((s.constrain i c).node i).state = .included :=
  ((sameShape_constrain s i c).state i).trans (isIncluded_iff.mp hn.rival.included)

include hs

theorem node_constrain : (s.constrain i c).node i = { s.node i with constraint := c } :=
  node_update_self (hs.lt_size_of_contender hn.rival.mem)

theorem fades_shift (v : Version) : Fades {i} s ((s.constrain i c).rebase i v).1 :=
  (Fades.constrain (Finset.mem_singleton_self i) c).trans
    (.rebase ((sameShape_constrain s i c).sound hs) hn.rival.mem (Finset.mem_singleton_self i) v)

theorem core_shift (v : Version) : (((s.constrain i c).rebase i v).1.node i).core =
    ({ s.node i with
      constraint := c
      artifact := (s.node i).artifact.select v
      children := []
      expanded := false }).core := by
  have hi : i ∈ (s.constrain i c).contenders := hn.rival.mem
  rw [core_rebase ((sameShape_constrain s i c).sound hs) hi, hn.node_constrain hs]

theorem state_shift (v : Version) :
    (((s.constrain i c).rebase i v).1.node i).state = (s.node i).state :=
  (Node.state_of_core (hn.core_shift hs v)).trans rfl

theorem fades_abandon (e : NodeError) : Fades {i} s ((s.constrain i c).collapse i e).1 :=
  (Fades.constrain (Finset.mem_singleton_self i) c).trans
    (.collapse ((sameShape_constrain s i c).sound hs) hn.rival.mem (Finset.mem_singleton_self i)
      (.inr hn.state_constrain) e)

theorem core_abandon (e : NodeError) : (((s.constrain i c).collapse i e).1.node i).core =
    ({ s.node i with
      constraint := c
      state := .failed }).core := by
  have hi : i ∈ (s.constrain i c).contenders := hn.rival.mem
  rw [core_collapse ((sameShape_constrain s i c).sound hs) hi (.inr hn.state_constrain),
    hn.node_constrain hs]

theorem state_abandon (e : NodeError) :
    (((s.constrain i c).collapse i e).1.node i).state = .failed :=
  Node.state_of_core (hn.core_abandon hs e)

end IsNarrowing

end Mediation.Collection
