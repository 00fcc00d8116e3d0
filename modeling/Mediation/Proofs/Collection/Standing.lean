import Mediation.Proofs.Collection.Candor
import Mediation.Proofs.Collection.Waiting

/-! # What elections leave alone

An election gives a place to a loser and takes none away. So what was in play before it is so
after it, and has met whom it had met.
-/

namespace Mediation.Collection

variable {rules : Rules} {s t : Collection} {i j w x : ℕ} {k : Key} {ks : List Key}

theorem Sound.not_mem_descendants_of_inPlay (h : s.Sound) (hw : (s.node w).state ≠ .included)
    (hj : s.InPlay j) : j ∉ s.graph.descendants w := by
  intro hd
  obtain ⟨hc, p, hp, hpi⟩ := hj
  obtain ⟨q, hq, hm⟩ := h.contender j hc
  obtain rfl : q = p := Option.some.inj (hq.symm.trans hp)
  rcases h.parent_of_descendant hd hm with rfl | hpd
  · exact hw hpi
  · exact (h.not_live_below hw hpd).2 hpi

theorem revive_of_inPlay (hs : s.Sound) (hw : w ∈ s.eligible k) (hj : s.InPlay j)
    (hst : (s.node j).state ≠ .omittedForConflict) (cs : List NodeId) :
    (s.revive w cs).InPlay j ∧ ((s.revive w cs).node j).core = (s.node j).core := by
  obtain ⟨hwc, -, hws, -⟩ := mem_eligible.mp hw
  have hwn : (s.node w).state ≠ .included := by rw [hws]; decide
  have hd := fun j => hs.not_live_below (j := j) hwn
  have ha := agrees_revive hs.tree (hs.lt_size_of_contender hwc) (hs.fresh w) hd cs
  have ht := hs.detach hwc
  have hwd : w ∈ (s.detach w).contenders :=
    mem_contenders_detach.mpr ⟨hwc, hs.not_mem_descendants⟩
  have hnode {j : ℕ} (hjw : j ≠ w) (hj : j ∉ s.graph.descendants w) :
      ((s.detach w).accept w).node j = s.node j := by
    rw [ht.accept_node hwd, if_neg hjw, hs.detach_node hwc, if_neg hjw, if_neg hj]
  have hjw : j ≠ w := by
    rintro rfl
    exact hst hws
  have hjd := hs.not_mem_descendants_of_inPlay hwn hj
  have hcore := (ha.core j).trans (congrArg Node.core (hnode hjw hjd))
  obtain ⟨hc, p, hp, hpi⟩ := hj
  refine ⟨⟨?_, p, ?_, ?_⟩, hcore⟩
  · rw [ha.contenders, contenders_accept]
    exact mem_contenders_detach.mpr ⟨hc, hjd⟩
  · exact (congrArg Node.parent hcore :).trans hp
  · have hpw : p ≠ w := by
      rintro rfl
      exact hwn hpi
    have hpd : p ∉ s.graph.descendants w := fun hpd => (hd p hpd).2 hpi
    exact (Node.state_of_core ((ha.core p).trans (congrArg Node.core (hnode hpw hpd)))).trans hpi

theorem reelect_of_inPlay (h : reelect rules ks s = .ok () t) (hs : Steady (s, ks))
    (hj : s.InPlay j) (hst : (s.node j).state ≠ .omittedForConflict) :
    t.InPlay j ∧ (t.node j).core = (s.node j).core := by
  refine reelect_induct h hs (P := fun u => u.InPlay j ∧ (u.node j).core = (s.node j).core)
    ⟨hj, rfl⟩ fun u k _ w hu hP _ hw => ?_
  have hst : (u.node j).state ≠ .omittedForConflict := by
    rw [Node.state_of_core hP.2]
    exact hst
  obtain ⟨hin, hcore⟩ := revive_of_inPlay hu.sound hw hP.1 hst (u.eligible k)
  exact ⟨hin, hcore.trans hP.2⟩

theorem hasMet_of_eq (hs : s.Sound) (hi : s.IsRival x i)
    (hc : (s.node i).constraint = (s.node x).constraint) : s.HasMet x := by
  intro w hw
  obtain ⟨hwc, hwk, hwi⟩ := of_winner?_eq_some hw
  obtain rfl : w = i := hs.unique w i (hs.ne_root_of_contender hwc)
    (hs.ne_root_of_contender hi.mem) hwi (isIncluded_iff.mp hi.included) (hwk.trans hi.key.symm)
  exact .inr (.inl hc)

theorem hasMet_of_rebase {v : Version} (hs : Steady (s, [])) (hr : s.IsRival x i)
    (hc : (s.node i).constraint = (s.node x).constraint)
    (ht : reelect rules (s.rebase i v).2 (s.rebase i v).1 = .ok () t)
    (hx : (t.node x).constraint = (s.node x).constraint)
    (hk : (t.node x).key = (s.node x).key) : t.HasMet x := by
  have hii := isIncluded_iff.mp hr.included
  have hcore := core_rebase hs.sound hr.mem v
  have hst := hs.rebase hr.mem v
  have hstate : ((s.rebase i v).1.node i).state = .included :=
    (Node.state_of_core hcore).trans hii
  have hin := hst.sound.inPlay (hs.sound.ne_root_of_contender hr.mem) (.inr hstate)
  obtain ⟨hit, hcore'⟩ := reelect_of_inPlay ht hst hin (by rw [hstate]; decide)
  have hall := hcore'.trans hcore
  have hm : Moves rules ⟨fun _ _ _ => False, fun _ _ _ => False⟩ x (s.rebase i v) (t, []) :=
    Moves.of_reelect ht
  refine hasMet_of_eq (hm.steady hst).sound ⟨hit.1, ?_, ?_⟩ ?_
  · exact isIncluded_iff.mpr ((Node.state_of_core hall).trans hii)
  · rw [hk, ← hr.key]
    exact (congrArg Node.key hall :)
  · rw [hx, ← hc]
    exact (congrArg Node.constraint hall :)

theorem hasMet_of_collapse {e : NodeError} (hs : Steady (s, [])) (hr : s.IsRival x i)
    (hc : s.IsCandid) (ht : reelect rules (s.collapse i e).2 (s.collapse i e).1 = .ok () t)
    (hk : (t.node x).key = (s.node x).key) : t.HasMet x := by
  have hii := isIncluded_iff.mp hr.included
  have hst := hs.collapse hr.mem (.inr hii) e
  have hir := hs.sound.ne_root_of_contender hr.mem
  -- all winners of the identity are revived ones
  let P (u : Collection) : Prop := u.IsCandid ∧ ∀ w : ℕ, w ≠ Graph.root →
    (u.node w).state = .included → (u.node w).key = (s.node x).key → u.HasRevived (s.node x).key
  have hP : P t := by
    refine reelect_induct ht hst (P := P) ⟨hc.collapse hs.sound hr.mem (.inr hii) e, ?_⟩ ?_
    · intro w hwr hwi hwk
      have hf := Fades.collapse hs.sound hr.mem (Finset.mem_singleton_self i) (.inr hii) e
      have hwp := hst.sound.inPlay hwr (.inr hwi)
      have hwE : w ∉ ({i} : Finset ℕ) := by
        rw [Finset.mem_singleton]
        rintro rfl
        rw [state_collapse hs.sound hr.mem (.inr hii) e] at hwi
        cases hwi
      have hwk : (s.node w).key = (s.node i).key :=
        ((Node.key_of_site (hf.site w)).symm.trans hwk).trans hr.key.symm
      refine absurd (Finset.mem_singleton.mpr ?_) hwE
      exact hs.sound.unique w i hwr hir ((hf.state hwE hwp).symm.trans hwi) hii hwk
    · rintro u k ks v hu ⟨huc, huw⟩ hv hve
      have hus : u.Sound := hu.sound
      have hf := Fades.revive hus hve (Finset.mem_singleton_self v) (u.eligible k)
      refine ⟨huc.revive hus hve (u.eligible k), fun w hwr hwi hwk => ?_⟩
      have hwp := (hu.revive hv hve (u.eligible k)).sound.inPlay hwr (.inr hwi)
      have huk : (u.node w).key = (s.node x).key := (Node.key_of_site (hf.site w)).symm.trans hwk
      by_cases hwE : w ∈ ({v} : Finset ℕ)
      · obtain rfl := Finset.mem_singleton.mp hwE
        rw [← huk]
        exact hasRevived_of_revive hus huc hve (u.eligible k)
      · have hwi : (u.node w).state = .included := (hf.state hwE hwp).symm.trans hwi
        exact (huw w hwr hwi huk).of_extends (.of_tells (tells_revive u v (u.eligible k)).1)
  intro w hw
  obtain ⟨hwc, hwk, hwi⟩ := of_winner?_eq_some hw
  have hm : Moves rules ⟨fun _ _ _ => False, fun _ _ _ => False⟩ x (s.collapse i e) (t, []) :=
    Moves.of_reelect ht
  have hwr := (hm.steady hst).sound.ne_root_of_contender hwc
  exact .inr (.inr (hk ▸ hP.2 w hwr hwi (hwk.trans hk)))

end Mediation.Collection
