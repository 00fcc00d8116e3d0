import Mediation.Proofs.Collection.Subtree

/-! # What decisions amount to

Up to scopes and notes every decision is made of toppled, detached and accepted
nodes, and the identities it leaves to vote are those of the included nodes that
were lost.
-/

namespace Mediation.Collection

variable {s t : Collection} {i j x w : ℕ}

namespace Agrees

theorem update_congr (h : s.Agrees t) {f g : Node → Node}
    (hf : ∀ m n : Node, m.core = n.core → (f m).core = (g n).core) (i : ℕ) :
    (s.update i g).Agrees (t.update i f) where
  size := by rw [graph_update, graph_update, Graph.size_update, Graph.size_update, h.size]
  contenders := h.contenders
  core j := by
    rw [node_update, node_update, h.size]
    split
    · exact hf _ _ (h.core j)
    · exact h.core j

theorem accept_congr (h : s.Agrees t) (i : ℕ) : (s.accept i).Agrees (t.accept i) := by
  refine (((emit _ _).symm.trans ?_).trans (emit _ _))
  refine h.update_congr (fun m n hc => ?_) i
  exact congrArg (fun n : Node => { n with state := .included }) hc

theorem disableBelow_congr (h : s.Agrees t) (i : ℕ) :
    (s.disableBelow i).Agrees (t.disableBelow i) where
  size := by rw [size_disableBelow, size_disableBelow, h.size]
  contenders := by rw [contenders_disableBelow, contenders_disableBelow, h.contenders]
  core j := by
    rw [node_disableBelow, node_disableBelow, h.descendants]
    split
    · exact congrArg Node.disabled (h.core j)
    · exact h.core j

theorem of_nodes (hs : t.graph.size = s.graph.size) (hc : t.contenders = s.contenders)
    (h : ∀ i, t.node i = s.node i) : s.Agrees t :=
  ⟨hs, hc, fun i => by rw [h]⟩

end Agrees

theorem Agrees.mark (s : Collection) (i : ℕ) (st : NodeState) (kept : Option NodeId) :
    (s.mark i st).Agrees (s.update i fun n => { n with state := st, kept := kept }) :=
  (refl s).update_congr
    (fun _ _ hc => congrArg (fun n : Node => { n with state := st }) hc) i

theorem mem_keysBelow {k : Key} : k ∈ s.keysBelow i ↔
    ∃ d ∈ s.graph.descendants i, s.graph.isIncluded d = true ∧ (s.node d).key = k := by
  simp [keysBelow, and_assoc]

theorem agrees_disableBelow_of_leaf (h : (s.node i).children = []) :
    s.Agrees (s.disableBelow i) := by
  refine .of_nodes size_disableBelow contenders_disableBelow fun j => ?_
  rw [node_disableBelow, Graph.descendants_eq_nil ((children_eq s i).trans h)]
  simp

theorem agrees_yieldTo (hc : (s.node x).children = []) :
    (s.topple x .omittedForConflict).Agrees (s.yieldTo w x) := by
  refine .trans ?_ (agrees_widenScope _ _ _)
  refine .trans ?_ (.emit _ _)
  refine .trans (agrees_disableBelow_of_leaf ?_).symm (.mark s x .omittedForConflict (some w))
  exact (view_mark Node.children fun _ _ => rfl).trans hc

/-- The collection in which a newcomer has taken the place of a winner, with all below that one
still there. -/
def replace (s : Collection) (i x : NodeId) : Collection := (s.mark i .omittedForConflict).accept x

theorem agrees_replace (s : Collection) (k : Key) (i x : ℕ) (e : Event) :
    (s.replace i x).Agrees
      (((((s.update i fun n => { n with state := .omittedForConflict, kept := some x }).emit
        e).accept x).redirect k i x).widenScope x i) := by
  refine .trans ?_ (agrees_widenScope _ _ _)
  refine .trans ?_ (agrees_redirect _ _ _ _)
  exact Agrees.accept_congr (.trans (.mark s i .omittedForConflict (some x)) (.emit _ _)) x

theorem size_replace : (s.replace i x).graph.size = s.graph.size := size_accept.trans size_mark

theorem contenders_replace : (s.replace i x).contenders = s.contenders := rfl

theorem node_replace (hi : i < s.graph.size) (hx : x < s.graph.size) (hne : x ≠ i) (j : ℕ) :
    (s.replace i x).node j =
      if j = i then { s.node i with state := .omittedForConflict }
      else if j = x then { s.node x with state := .included, kept := none }
      else s.node j := by
  rw [replace, node_accept, size_mark, node_mark]
  by_cases hj : j = i
  · subst hj
    simp [hi, hne]
  · have hj' : i ≠ j := fun h => hj h.symm
    by_cases hk : j = x
    · subst hk
      simp [hj, hj', hx]
    · have hk' : x ≠ j := fun h => hk h.symm
      simp [hj, hj', hk, hk']

theorem descendants_replace : (s.replace i x).graph.descendants j = s.graph.descendants j := by
  refine descendants_eq size_replace (fun k => ?_) j
  have h1 : ((s.replace i x).node k).children =
      ((s.mark i .omittedForConflict).node k).children :=
    view_update Node.children (by intro _; rfl) _ x k
  exact h1.trans (view_mark Node.children fun _ _ => rfl)

section Displace

variable (ht : s.graph.IsTree) (hi : i < s.graph.size) (hx : x < s.graph.size) (hne : x ≠ i)
include ht hi hx hne

theorem agrees_disableBelow_replace (hp : (s.node x).state = .pending) :
    (if x ∈ s.graph.descendants i then s.topple i .omittedForConflict
      else (s.topple i .omittedForConflict).accept x).Agrees ((s.replace i x).disableBelow i) := by
  have hn : i ∉ s.graph.descendants i := ht.not_mem_descendants i
  split
  · rename_i hm
    refine ⟨?_, ?_, fun j => ?_⟩
    · rw [size_topple, size_disableBelow, size_replace]
    · rw [contenders_topple, contenders_disableBelow, contenders_replace]
    · rw [node_topple ht hi, node_disableBelow, descendants_replace, node_replace hi hx hne]
      by_cases hj : j = i
      · subst hj
        simp [hn]
      · by_cases hk : j = x
        · subst hk
          simp [hj, hm, Node.disabled, disabledState, hp, Node.core]
        · simp [hj, hk]
  · rename_i hm
    refine ⟨?_, ?_, fun j => ?_⟩
    · rw [size_accept, size_topple, size_disableBelow, size_replace]
    · rw [contenders_accept, contenders_topple, contenders_disableBelow, contenders_replace]
    · rw [node_accept, size_topple, node_topple ht hi, node_disableBelow, descendants_replace,
        node_replace hi hx hne]
      by_cases hj : j = i
      · subst hj
        simp [hn, hne]
      · by_cases hk : j = x
        · subst hk
          simp [hj, hm, hx]
        · have hk' : x ≠ j := fun h => hk h.symm
          simp [hj, hk, hk']

variable (hf : (s.node i).expanded = false → (s.node i).children = []) (k : Key)
include hf

theorem agrees_displace (hp : (s.node x).state = .pending) :
    (if x ∈ s.graph.descendants i then s.topple i .omittedForConflict
      else (s.topple i .omittedForConflict).accept x).Agrees (s.displace k i x).1 := by
  refine (agrees_disableBelow_replace ht hi hx hne hp).trans ?_
  unfold displace
  dsimp only
  have ha := agrees_replace s k i x
    (.omittedForConflict ((s.update i fun n =>
      { n with state := .omittedForConflict, kept := some x }).node i).artifact
      ((s.update i fun n =>
        { n with state := .omittedForConflict, kept := some x }).node x).artifact)
  split
  · exact ha.disableBelow_congr i
  · rename_i he
    refine .trans (agrees_disableBelow_of_leaf ?_).symm ha
    have hv := ha.expanded i
    rw [node_replace hi hx hne, if_pos rfl] at hv ⊢
    exact hf (hv.symm.trans (Bool.eq_false_iff.mpr he))

theorem mem_agenda_displace (k' : Key) :
    k' ∈ (s.displace k i x).2 ↔ ∃ d ∈ s.graph.descendants i,
      (d = x ∨ s.graph.isIncluded d = true) ∧ (s.node d).key = k' := by
  have hi' : i ∉ s.graph.descendants i := ht.not_mem_descendants i
  unfold displace
  dsimp only
  have ha := agrees_replace s k i x
    (.omittedForConflict ((s.update i fun n =>
      { n with state := .omittedForConflict, kept := some x }).node i).artifact
      ((s.update i fun n =>
        { n with state := .omittedForConflict, kept := some x }).node x).artifact)
  split
  · rw [mem_keysBelow, ha.descendants, descendants_replace]
    refine exists_congr fun d => and_congr_right fun hm => ?_
    have hdi : d ≠ i := fun h => hi' (h ▸ hm)
    rw [ha.isIncluded, ha.key, isIncluded_iff, isIncluded_iff, node_replace hi hx hne, if_neg hdi]
    by_cases hdx : d = x
    · subst hdx
      simp [Node.key]
    · simp [hdx]
  · rename_i he
    have hv := ha.expanded i
    rw [node_replace hi hx hne, if_pos rfl] at hv
    have hl := hf (hv.symm.trans (Bool.eq_false_iff.mpr he))
    simp [Graph.descendants_eq_nil ((children_eq s i).trans hl)]

end Displace

theorem agrees_collapse (hf : s.graph.isIncluded i = false ∨ (s.node i).expanded = false →
    (s.node i).children = []) (e : NodeError) :
    (s.topple i .failed).Agrees (s.collapse i e).1 := by
  have hr : (s.mark i .failed).Agrees ((s.mark i .failed).report i e) := .report _ _ _
  have hl (h : (s.node i).children = []) :
      (s.topple i .failed).Agrees ((s.mark i .failed).report i e) := by
    refine .trans (agrees_disableBelow_of_leaf ?_).symm hr
    exact (view_mark Node.children fun _ _ => rfl).trans h
  unfold collapse
  dsimp only
  split
  · split
    · exact hr.disableBelow_congr i
    · rename_i he
      exact hl (hf (.inr (Bool.eq_false_iff.mpr he)))
  · rename_i hi
    exact hl (hf (.inl (Bool.eq_false_iff.mpr hi)))

theorem mem_agenda_collapse (ht : s.graph.IsTree)
    (hf : (s.node i).expanded = false → (s.node i).children = []) (e : NodeError) (k : Key) :
    k ∈ (s.collapse i e).2 ↔ s.graph.isIncluded i = true ∧ (k = (s.node i).key ∨
      ∃ d ∈ s.graph.descendants i, s.graph.isIncluded d = true ∧ (s.node d).key = k) := by
  have hi' : i ∉ s.graph.descendants i := ht.not_mem_descendants i
  have hr : (s.mark i .failed).Agrees ((s.mark i .failed).report i e) := .report _ _ _
  change k ∈ (if s.graph.isIncluded i then
    if (s.node i).expanded then (((s.mark i .failed).report i e).disableBelow i,
      (s.node i).key :: ((s.mark i .failed).report i e).keysBelow i)
    else ((s.mark i .failed).report i e, [(s.node i).key])
    else ((s.mark i .failed).report i e, [])).2 ↔ _
  split
  · rename_i hi
    split
    · rw [List.mem_cons, mem_keysBelow, hr.descendants, descendants_mark]
      simp only [hi, true_and]
      refine or_congr_right (exists_congr fun d => and_congr_right fun hm => ?_)
      have hdi : ¬ (i = d ∧ i < s.graph.size) := fun h => hi' (h.1 ▸ hm)
      rw [hr.isIncluded, hr.key, isIncluded_iff, isIncluded_iff, node_mark, if_neg hdi]
    · rename_i he
      have hl := hf (Bool.eq_false_iff.mpr he)
      simp [hi, Graph.descendants_eq_nil ((children_eq s i).trans hl)]
  · rename_i hi
    simp [hi]

theorem agrees_detach_of_leaf (ht : s.graph.IsTree) (hi : i < s.graph.size)
    (hx : (s.node i).expanded = false) (hc : (s.node i).children = []) :
    s.Agrees (s.detach i) := by
  have hd := Graph.descendants_eq_nil ((children_eq s i).trans hc)
  refine .of_nodes size_detach ?_ fun j => ?_
  · rw [contenders_detach, hd]
    simp
  · rw [node_detach ht hi, hd]
    by_cases hj : j = i
    · subst hj
      simp [← hc, ← hx]
    · simp [hj]

theorem view_select {α : Type} (w : Node → α) (v : Version)
    (hw : ∀ n : Node, w { n with artifact := n.artifact.select v } = w n) :
    w ((s.select i v).node j) = w (s.node j) := view_update w hw s i j

theorem size_select (v : Version) : (s.select i v).graph.size = s.graph.size :=
  Graph.size_update _ _ _

theorem descendants_select (v : Version) :
    (s.select i v).graph.descendants j = s.graph.descendants j :=
  descendants_eq (size_select v) (fun _ => view_select Node.children v fun _ => rfl) j

theorem isTree_select (ht : s.graph.IsTree) (v : Version) : (s.select i v).graph.IsTree := by
  refine ht.of_sites (size_select v) (fun j => view_select Node.site v fun _ => rfl) fun j => ?_
  have hc : ((s.select i v).node j).children = (s.node j).children :=
    view_select Node.children v fun _ => rfl
  rw [children_eq, children_eq, hc]

theorem agrees_rebase (ht : s.graph.IsTree) (hi : i < s.graph.size)
    (hf : (s.node i).expanded = false → (s.node i).children = []) (v : Version) :
    ((s.select i v).detach i).Agrees (s.rebase i v).1 := by
  unfold rebase
  dsimp only
  split
  · exact .enqueue _ _
  · rename_i he
    have hx : ((s.select i v).node i).expanded = (s.node i).expanded :=
      view_select Node.expanded v fun _ => rfl
    have hc : ((s.select i v).node i).children = (s.node i).children :=
      view_select Node.children v fun _ => rfl
    have he' : ((s.select i v).node i).expanded = false := Bool.eq_false_iff.mpr he
    exact (agrees_detach_of_leaf (isTree_select ht v) (hi.trans_eq (size_select v).symm) he'
      (hc.trans (hf (hx.symm.trans he')))).symm

theorem mem_agenda_rebase (hf : (s.node i).expanded = false → (s.node i).children = [])
    (v : Version) (k : Key) : k ∈ (s.rebase i v).2 ↔
      ∃ d ∈ s.graph.descendants i, s.graph.isIncluded d = true ∧ (s.node d).key = k := by
  have hx : ((s.select i v).node i).expanded = (s.node i).expanded :=
    view_select Node.expanded v fun _ => rfl
  have hs (j : ℕ) : ((s.select i v).node j).state = (s.node j).state :=
    view_select Node.state v fun _ => rfl
  have hk (j : ℕ) : ((s.select i v).node j).key = (s.node j).key :=
    view_select Node.key v fun _ => rfl
  unfold rebase
  dsimp only
  split
  · simp only [mem_keysBelow, descendants_select, isIncluded_iff, hs, hk]
  · rename_i he
    have hl := hf (hx.symm.trans (Bool.eq_false_iff.mpr he))
    simp [Graph.descendants_eq_nil ((children_eq s i).trans hl)]

theorem agrees_revive (ht : s.graph.IsTree) (hw : w < s.graph.size)
    (hf : (s.node w).expanded = false → (s.node w).children = [])
    (hd : ∀ j ∈ s.graph.descendants w,
      (s.node j).state ≠ .pending ∧ (s.node j).state ≠ .included) (cs : List NodeId) :
    ((s.detach w).accept w).Agrees (s.revive w cs) := by
  unfold revive
  dsimp only
  refine .trans (.accept_congr ?_ w) (.enqueue _ _)
  have ha : s.Agrees (cs.foldl (fun s c => s.update c fun n => { n with kept := some w }) s) :=
    .foldl (fun s c => by apply Agrees.update; intro _; rfl) cs s
  generalize cs.foldl (fun s c => s.update c fun n => { n with kept := some w }) s = t at ha ⊢
  have hs : (s.detach w).Agrees (t.prune w) := by
    refine ⟨?_, ?_, fun j => ?_⟩
    · rw [size_detach]
      exact (Graph.size_update _ _ _).trans ha.size
    · rw [contenders_detach, prune, contenders_update, forget, ha.contenders, ha.descendants]
    · rw [node_detach ht hw, node_prune, ha.size]
      by_cases hj : j = w
      · subst hj
        rw [if_pos ⟨rfl, hw⟩, if_pos rfl]
        exact congrArg (fun n : Node => { n with children := [], expanded := false }) (ha.core j)
      · have hj' : ¬ (w = j ∧ w < s.graph.size) := fun h => hj h.1.symm
        rw [if_neg hj', if_neg hj, ha.core]
        split
        · rename_i hm
          rw [Node.disabled, disabledState_eq_self (hd j hm).1 (hd j hm).2]
        · rfl
  split
  · exact hs
  · rename_i he
    have hx : (s.node w).expanded = false := (ha.expanded w).symm.trans (Bool.eq_false_iff.mpr he)
    exact (agrees_detach_of_leaf ht hw hx (hf hx)).symm.trans ha

end Mediation.Collection
