import Mediation.Proofs.Collection.Candor
import Mediation.Proofs.Collection.Widening

/-! # Setbacks

The failure of a node is noted once, when it fails. No node that has failed gets another state:
only pending and included nodes are disabled, and only losers are revived.
-/

namespace Mediation

def Graph.IsFailed (g : Graph) (i : NodeId) : Prop := i < g.size ∧ (g.node i).state = .failed

instance (g : Graph) (i : NodeId) : Decidable (g.IsFailed i) :=
  inferInstanceAs (Decidable (_ ∧ _))

namespace Collection

variable {rules : Rules} {ev : Evidence} {s t u : Collection} {i j w x : ℕ} {f : Node → Node}

theorem disabledState_eq_failed (st : NodeState) : disabledState st = .failed ↔ st = .failed := by
  cases st <;> decide

/-- A change by which no node fails, and none that has failed gets another state. -/
structure Spares (s t : Collection) : Prop where
  problems : t.problems = s.problems
  failed : ∀ j : ℕ, t.graph.IsFailed j ↔ s.graph.IsFailed j

namespace Spares

theorem refl (s : Collection) : Spares s s := ⟨rfl, fun _ => Iff.rfl⟩

theorem trans (h : Spares s t) (h' : Spares t u) : Spares s u :=
  ⟨h'.problems.trans h.problems, fun j => (h'.failed j).trans (h.failed j)⟩

theorem of_agrees (h : s.Agrees t) (hp : t.problems = s.problems) : Spares s t := by
  refine ⟨hp, fun j => ?_⟩
  unfold Graph.IsFailed
  rw [h.size, show (t.graph.node j).state = (s.graph.node j).state from h.state j]

theorem update (hf : i < s.graph.size →
    ((f (s.node i)).state = .failed ↔ (s.node i).state = .failed)) : Spares s (s.update i f) := by
  refine ⟨rfl, fun j => ?_⟩
  unfold Graph.IsFailed
  rw [graph_update, Graph.size_update, Graph.node_update]
  refine and_congr_right fun _ => ?_
  split
  · rename_i h
    obtain ⟨rfl, hi⟩ := h
    exact hf hi
  · rfl

theorem update_of_not_failed (h : ¬ s.graph.IsFailed i) (hf : ∀ n, (f n).state ≠ .failed) :
    Spares s (s.update i f) :=
  update fun hi => iff_of_false (hf _) fun hs => h ⟨hi, hs⟩

theorem foldl_update (hf : ∀ n, (f n).state = .failed ↔ n.state = .failed) (is : List NodeId)
    (s : Collection) : Spares s (is.foldl (fun s i => s.update i f) s) := by
  induction is generalizing s with
  | nil => exact refl s
  | cons i is ih => exact (update fun _ => hf _).trans (ih _)

theorem emit (s : Collection) (e : Event) : Spares s (s.emit e) := of_agrees (.emit s e) rfl

theorem enqueue (s : Collection) (i : NodeId) : Spares s (s.enqueue i) := by
  refine of_agrees (.enqueue s i) ?_
  unfold Collection.enqueue
  split <;> rfl

theorem select (s : Collection) (i : NodeId) (v : Version) : Spares s (s.select i v) :=
  update fun _ => Iff.rfl

theorem constrain (s : Collection) (i : NodeId) (c : Constraint) : Spares s (s.constrain i c) :=
  update fun _ => Iff.rfl

theorem accept (h : ¬ s.graph.IsFailed i) : Spares s (s.accept i) :=
  (update_of_not_failed h (by simp)).trans (emit _ _)

theorem disableBelow (s : Collection) (i : NodeId) : Spares s (s.disableBelow i) := by
  apply foldl_update
  intro n
  exact disabledState_eq_failed n.state

theorem prune (s : Collection) (i : NodeId) : Spares s (s.prune i) := by
  have hf : Spares s (s.forget (s.graph.descendants i)) := ⟨rfl, fun _ => Iff.rfl⟩
  refine hf.trans ?_
  apply update
  intro _; rfl

theorem redirect (s : Collection) (k : Key) (old new : NodeId) :
    Spares s (s.redirect k old new) := by
  apply foldl_update
  intro _; rfl

theorem widenScope (s : Collection) (w x : NodeId) : Spares s (s.widenScope w x) :=
  of_agrees (agrees_widenScope s w x) (problems_widenScope s w x)

theorem yieldTo (h : ¬ s.graph.IsFailed x) (w : NodeId) : Spares s (s.yieldTo w x) :=
  ((update_of_not_failed h (by simp)).trans (emit _ _)).trans (widenScope _ w x)

theorem displace (hi : ¬ s.graph.IsFailed i) (hx : ¬ s.graph.IsFailed x) (k : Key) :
    Spares s (s.displace k i x).1 := by
  have h : Spares s (s.update i fun n =>
      { n with state := .omittedForConflict, kept := some x }) :=
    update_of_not_failed hi (by simp)
  have hnext {u : Collection} (hu : Spares s u) :
      Spares s (((u.accept x).redirect k i x).widenScope x i) :=
    ((hu.trans (accept ((hu.failed x).not.mpr hx))).trans (redirect _ k i x)).trans
      (widenScope _ x i)
  unfold Collection.displace
  dsimp only
  split
  · exact (hnext (h.trans (emit _ _))).trans (disableBelow _ i)
  · exact hnext (h.trans (emit _ _))

theorem rebase (s : Collection) (i : NodeId) (v : Version) : Spares s (s.rebase i v).1 := by
  unfold Collection.rebase
  dsimp only
  split
  · exact (((select s i v).trans (disableBelow _ i)).trans (prune _ i)).trans (enqueue _ i)
  · exact select s i v

theorem revive (h : ¬ s.graph.IsFailed w) (cs : List NodeId) : Spares s (s.revive w cs) := by
  have hc : Spares s (cs.foldl (fun s c => s.update c fun n => { n with kept := some w }) s) := by
    apply foldl_update
    intro _; rfl
  have hnext {u : Collection} (hu : Spares s u) : Spares s ((u.accept w).enqueue w) :=
    (hu.trans (accept ((hu.failed w).not.mpr h))).trans (enqueue _ w)
  unfold Collection.revive
  dsimp only
  split
  · exact hnext (hc.trans (prune _ w))
  · exact hnext hc

end Spares

/-- A change by which one node fails, which is noted with its trail. -/
structure Fails (i : ℕ) (s t : Collection) : Prop where
  problems : ∃ p : Problem, t.problems = s.problems ++ [p] ∧
    p.artifact.trail = (s.node i).artifact.trail
  failed : ∀ j : ℕ, t.graph.IsFailed j ↔ s.graph.IsFailed j ∨ j = i

theorem Fails.spares (h : Fails i s t) (ht : Spares t u) : Fails i s u := by
  obtain ⟨p, hp, hi⟩ := h.problems
  exact ⟨⟨p, ht.problems.trans hp, hi⟩, fun j => (ht.failed j).trans (h.failed j)⟩

theorem Fails.of_spares (h : Fails i t u) (hs : Spares s t)
    (ht : (t.node i).artifact.trail = (s.node i).artifact.trail) : Fails i s u := by
  obtain ⟨p, hp, hi⟩ := h.problems
  refine ⟨⟨p, by rw [hp, hs.problems], hi.trans ht⟩, fun j => ?_⟩
  rw [h.failed, hs.failed]

theorem fails_collapse (hi : i < s.graph.size) (e : NodeError) : Fails i s (s.collapse i e).1 := by
  have h : Fails i s ((s.update i fun n => { n with state := .failed }).report i e) := by
    refine ⟨⟨_, rfl, ?_⟩, fun j => ?_⟩
    · exact view_update (fun n => n.artifact.trail) (by intro _; rfl) s i i
    · unfold Graph.IsFailed
      change j < (s.graph.update i _).size ∧ ((s.graph.update i _).node j).state = .failed ↔ _
      rw [Graph.size_update, Graph.node_update]
      by_cases hj : i = j
      · subst hj
        simp [hi]
      · simp [hj, Ne.symm hj]
  unfold collapse
  dsimp only
  split
  · split
    · exact h.spares (.disableBelow _ i)
    · exact h
  · exact h

/-- What a move makes of failures: either there is none, or a contender fails without aborting the
resolution. -/
inductive Suffers (rules : Rules) (s t : Collection) : Prop
  | spared (h : Spares s t)
  | failed {i : ℕ} (hi : i ∈ s.contenders) (hn : ¬ s.graph.IsFailed i)
      (hf : s.isFatal rules i = false) (h : Fails i s t)

theorem not_isFailed_of_state {st : NodeState} (h : (s.node i).state = st) (hst : st ≠ .failed) :
    ¬ s.graph.IsFailed i := fun hf => hst (h.symm.trans hf.2)

theorem Move.suffers {a b : Situation} (m : Move rules ev x a b) (h : Steady a) :
    Suffers rules a.1 b.1 := by
  have hs := h.sound
  cases m with
  | tell e => exact .spared (.emit _ e)
  | choose => exact .spared (.select _ _ _)
  | tighten => exact .spared (.constrain _ _ _)
  | retain => exact .spared (.constrain _ _ _)
  | shift => exact .spared ((Spares.constrain _ _ _).trans (.rebase _ _ _))
  | @abandon s i c e hn _ hf =>
    have hi := hn.rival.mem
    have hii := isIncluded_iff.mp hn.rival.included
    refine .failed hi (not_isFailed_of_state hii (by decide)) hf ?_
    refine (fails_collapse ?_ e).of_spares (.constrain s i c) ((Tells.constrain s i c).trail i)
    exact (hs.lt_size_of_contender hi).trans_eq (Tells.constrain s i c).size.symm
  | reject e hp hf =>
    have hx := Steady.pending_contender hs hp
    exact .failed hx (not_isFailed_of_state hp (by decide)) hf
      (fails_collapse (hs.lt_size_of_contender hx) e)
  | seat hp => exact .spared (.accept (not_isFailed_of_state hp (by decide)))
  | yield hp => exact .spared (.yieldTo (not_isFailed_of_state hp (by decide)) _)
  | displace hp _ hw =>
    exact .spared (.displace (not_isFailed_of_state (of_winner?_eq_some hw).2.2 (by decide))
      (not_isFailed_of_state hp (by decide)) _)
  | lose e hr hi _ hf =>
    have hi := isIncluded_iff.mp hi
    have hx := (hs.live x hr (.inr hi)).1
    exact .failed hx (not_isFailed_of_state hi (by decide)) hf
      (fails_collapse (hs.lt_size_of_contender hx) e)
  | revive _ he =>
    have hst := (mem_eligible.mp (mem_of_elect he)).2.2.1
    exact .spared (.revive (not_isFailed_of_state hst (by decide)) _)
  | skip => exact .spared (.refl _)

theorem Suffers.isFailed (h : Suffers rules s t) (hj : s.graph.IsFailed j) :
    t.graph.IsFailed j := by
  cases h with
  | spared h => exact (h.failed j).mpr hj
  | failed _ _ _ h => exact (h.failed j).mpr (.inl hj)

theorem spares_expand (hx : x < s.graph.size) (d : Descriptor) :
    Spares s (s.expand rules x d).2 := by
  refine ⟨problems_expand hx d, fun j => ?_⟩
  by_cases hj : j < s.graph.size
  · have hst : ((s.expand rules x d).2.node j).state = (s.node j).state :=
      state_expand hx d hj
    have hjt : j < (s.expand rules x d).2.graph.size := hj.trans_le (size_le_expand hx d)
    exact and_congr (iff_of_true hjt hj) (by rw [← node, hst]; rfl)
  · refine iff_of_false ?_ fun hf => hj hf.1
    rintro ⟨hjt, hf⟩
    have hfate := (adds_expand rules hx d).fate j hjt ((size_opened d).trans_le (not_lt.mp hj))
    rw [node, hf] at hfate
    simp at hfate

end Collection

end Mediation
