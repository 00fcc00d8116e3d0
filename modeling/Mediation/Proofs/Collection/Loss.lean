import Mediation.Proofs.Collection.Sound

/-! # Losing nodes

A toppled or detached node takes what is below it out of the result, and nothing else.
The identities that had a winner there are vacant until they elect another one.
-/

namespace Mediation.Collection

variable {s t : Collection} {i j p c x : ℕ} {st : NodeState} {ks ls : List Key}

/-- Whether every identity with a loser below an included node has a winner, save those that
have yet to elect one. -/
def Seated (s : Collection) (ks : List Key) : Prop :=
  ∀ m p : ℕ, m ∈ s.contenders → (s.node m).parent = some p → (s.node p).state = .included →
    (s.node m).state = .omittedForConflict → (s.node m).key ∈ ks ∨
      ∃ w : ℕ, w ≠ Graph.root ∧ (s.node w).state = .included ∧ (s.node w).key = (s.node m).key

theorem SameShape.seated (h : s.SameShape t) (hs : s.Seated ks) : t.Seated ks := by
  intro m p
  simp only [h.contenders, h.parent, h.state, h.key]
  exact hs m p

theorem Seated.of_winners (h : s.Seated ks) (hk : ∀ k ∈ ks, k ∈ ls ∨
    ∃ w : ℕ, w ≠ Graph.root ∧ (s.node w).state = .included ∧ (s.node w).key = k) :
    s.Seated ls := by
  intro m p hm hp hi ho
  obtain hw | hw := h m p hm hp hi ho
  · exact hk _ hw
  · exact .inr hw

namespace Sound

variable (h : s.Sound)
include h

section Topple

variable (hi : i ∈ s.contenders) (hp : st ≠ .pending) (hn : st ≠ .included)
include hi

theorem topple_node (j : ℕ) : (s.topple i st).node j =
    if j = i then { s.node i with state := st }
    else if j ∈ s.graph.descendants i then (s.node j).disabled else s.node j :=
  node_topple h.tree (h.lt_size_of_contender hi) j

include hp hn in
/-- What is still pending or included after a node was toppled was not below it. -/
theorem of_live_topple (hj : ((s.topple i st).node j).state = .pending ∨
    ((s.topple i st).node j).state = .included) :
    j ≠ i ∧ j ∉ s.graph.descendants i ∧ (s.topple i st).node j = s.node j := by
  have hji : j ≠ i := by
    rintro rfl
    rw [h.topple_node hi, if_pos rfl] at hj
    exact hj.elim hp hn
  have hd : j ∉ s.graph.descendants i := by
    intro hd
    rw [h.topple_node hi, if_neg hji, if_pos hd] at hj
    exact hj.elim (disabledState_ne_pending _) (disabledState_ne_included _)
  exact ⟨hji, hd, by rw [h.topple_node hi, if_neg hji, if_neg hd]⟩

theorem topple_of_not_mem (hji : j ≠ i) (hd : j ∉ s.graph.descendants i) :
    (s.topple i st).node j = s.node j := by
  rw [h.topple_node hi, if_neg hji, if_neg hd]

include hp hn in
theorem child_of_live_topple (hpl : ((s.topple i st).node p).state = .included)
    (hc : c ∈ (s.node p).children) (hci : c ≠ i) :
    (s.node p).state = .included ∧ (s.topple i st).node c = s.node c := by
  obtain ⟨hpi, hpd, he⟩ := h.of_live_topple hi hp hn (.inr hpl)
  refine ⟨he ▸ hpl, h.topple_of_not_mem hi hci fun hd => ?_⟩
  exact (h.parent_of_descendant hd hc).elim hpi hpd

include hp hn in
theorem topple (hv : st = .omittedForConflict → (s.node i).version.isSome = true) :
    (s.topple i st).Sound := by
  have hsite (j : ℕ) : ((s.topple i st).node j).site = (s.node j).site :=
    view_topple Node.site fun _ _ => rfl
  have hparent (j : ℕ) := Node.parent_of_site (hsite j)
  have hkey (j : ℕ) := Node.key_of_site (hsite j)
  have hchildren (j : ℕ) : ((s.topple i st).node j).children = (s.node j).children :=
    view_topple Node.children fun _ _ => rfl
  have hexpanded (j : ℕ) : ((s.topple i st).node j).expanded = (s.node j).expanded :=
    view_topple Node.expanded fun _ _ => rfl
  have hresolved (j : ℕ) :
      ((s.topple i st).node j).artifact.resolved = (s.node j).artifact.resolved :=
    view_topple (fun n => n.artifact.resolved) fun _ _ => rfl
  have hversion (j : ℕ) : ((s.topple i st).node j).version = (s.node j).version :=
    view_topple Node.version fun _ _ => rfl
  have hincl (j : ℕ) (hj : ((s.topple i st).node j).state = .included) :
      (s.node j).state = .included := by
    rw [← (h.of_live_topple hi hp hn (.inr hj)).2.2, hj]
  exact {
    tree := h.tree.of_sites size_topple hsite fun j => by rw [children_eq, children_eq, hchildren]
    root_included := by
      rw [h.topple_of_not_mem hi (Ne.symm (h.ne_root_of_contender hi)) h.root_not_mem_descendants]
      exact h.root_included
    fresh j := by
      rw [hexpanded, hchildren]
      exact h.fresh j
    resolved j := by
      rw [hexpanded, hresolved]
      exact h.resolved j
    idle j hj := by
      obtain ⟨-, -, he⟩ := h.of_live_topple hi hp hn (.inl hj)
      exact he.symm ▸ h.idle j (he ▸ hj)
    contender j := by
      simp only [contenders_topple, hparent, hchildren]
      exact h.contender j
    live j hr hj := by
      obtain ⟨hji, hd, he⟩ := h.of_live_topple hi hp hn hj
      rw [he] at hj
      obtain ⟨q, hq, hqi, hm⟩ := h.parent_of_live hr hj
      rw [contenders_topple, hparent]
      refine ⟨(h.live j hr hj).1, q, hq, ?_⟩
      rw [h.topple_of_not_mem hi]
      · exact hqi
      · exact fun he => hd (h.mem_descendants_of_child hm (.inl he))
      · exact fun hqd => hd (h.mem_descendants_of_child hm (.inr hqd))
    unique j k hj hk hji hki := by
      simp only [hkey]
      exact h.unique j k hj hk (hincl j hji) (hincl k hki)
    attached q d hq hd := by
      rw [hchildren] at hd
      rw [contenders_topple]
      by_cases hdi : d = i
      · exact .inl (hdi ▸ hi)
      · obtain ⟨hqi, he⟩ := h.child_of_live_topple hi hp hn hq hd hdi
        rw [he]
        exact h.attached q d hqi hd
    versioned j hr hj := by
      rw [hversion]
      exact h.versioned j hr (hincl j hj)
    settled q d hq hd hs := by
      rw [hchildren] at hd
      rw [hversion]
      by_cases hdi : d = i
      · subst hdi
        rw [h.topple_node hi, if_pos rfl] at hs
        exact hv hs
      · obtain ⟨hqi, he⟩ := h.child_of_live_topple hi hp hn hq hd hdi
        exact h.settled q d hqi hd (he ▸ hs) }

include hp hn in
theorem seated_topple (hs : s.Seated []) (hv : st = .omittedForConflict → (s.node i).key ∈ ks)
    (hks : ∀ d : ℕ, d = i ∨ d ∈ s.graph.descendants i → (s.node d).state = .included →
      (s.node d).key ∈ ks) : (s.topple i st).Seated ks := by
  have hsite (j : ℕ) : ((s.topple i st).node j).site = (s.node j).site :=
    view_topple Node.site fun _ _ => rfl
  intro m p hm
  simp only [fun j => Node.parent_of_site (hsite j), fun j => Node.key_of_site (hsite j)]
  intro hmp hpl ho
  rw [contenders_topple] at hm
  by_cases hmi : m = i
  · subst hmi
    rw [h.topple_node hi, if_pos rfl] at ho
    exact .inl (hv ho)
  · obtain ⟨q, hq, hmq⟩ := h.contender m hm
    obtain rfl : q = p := Option.some.inj (hq.symm.trans hmp)
    obtain ⟨hqi, he⟩ := h.child_of_live_topple hi hp hn hpl hmq hmi
    obtain hw | ⟨w, hr, hw, hk⟩ := hs m q hm hq hqi (he ▸ ho)
    · cases hw
    · by_cases hd : w = i ∨ w ∈ s.graph.descendants i
      · exact .inl (hk ▸ hks w hd hw)
      · rw [not_or] at hd
        exact .inr ⟨w, hr, (h.topple_of_not_mem hi hd.1 hd.2).symm ▸ hw, hk⟩

end Topple

section Detach

variable (hi : i ∈ s.contenders)
include hi

theorem detach_node (j : ℕ) : (s.detach i).node j =
    if j = i then { s.node i with children := [], expanded := false }
    else if j ∈ s.graph.descendants i then (s.node j).disabled else s.node j :=
  node_detach h.tree (h.lt_size_of_contender hi) j

theorem detach_state_of_not_mem (hd : j ∉ s.graph.descendants i) :
    ((s.detach i).node j).state = (s.node j).state := by
  rw [h.detach_node hi, if_neg hd]
  split
  · rename_i hj
    exact hj ▸ rfl
  · rfl

theorem not_mem_of_live_detach (hj : ((s.detach i).node j).state = .pending ∨
    ((s.detach i).node j).state = .included) : j ∉ s.graph.descendants i := by
  intro hd
  have hji : j ≠ i := fun he => h.not_mem_descendants (he ▸ hd)
  rw [h.detach_node hi, if_neg hji, if_pos hd] at hj
  exact hj.elim (disabledState_ne_pending _) (disabledState_ne_included _)

theorem detach_children (hj : j ≠ i) :
    ((s.detach i).node j).children = (s.node j).children := by
  rw [h.detach_node hi, if_neg hj]
  split
  · rfl
  · rfl

theorem children_detach : ((s.detach i).node i).children = [] := by
  rw [h.detach_node hi, if_pos rfl]

theorem expanded_detach : ((s.detach i).node i).expanded = false := by
  rw [h.detach_node hi, if_pos rfl]

theorem child_of_live_detach (hp : ((s.detach i).node p).state = .included)
    (hc : c ∈ ((s.detach i).node p).children) :
    c ∈ (s.node p).children ∧ (s.node p).state = .included ∧ c ∉ s.graph.descendants i := by
  have hd := h.not_mem_of_live_detach hi (.inr hp)
  have hpi : p ≠ i := by
    rintro rfl
    rw [h.children_detach hi] at hc
    cases hc
  rw [h.detach_children hi hpi] at hc
  refine ⟨hc, (h.detach_state_of_not_mem hi hd).symm.trans hp, fun hcd => ?_⟩
  exact (h.parent_of_descendant hcd hc).elim hpi hd

theorem detach : (s.detach i).Sound := by
  have hsite (j : ℕ) : ((s.detach i).node j).site = (s.node j).site :=
    view_detach Node.site (fun _ _ => rfl) fun _ => rfl
  have hparent (j : ℕ) := Node.parent_of_site (hsite j)
  have hkey (j : ℕ) := Node.key_of_site (hsite j)
  have hresolved (j : ℕ) :
      ((s.detach i).node j).artifact.resolved = (s.node j).artifact.resolved :=
    view_detach (fun n => n.artifact.resolved) (fun _ _ => rfl) fun _ => rfl
  have hversion (j : ℕ) : ((s.detach i).node j).version = (s.node j).version :=
    view_detach Node.version (fun _ _ => rfl) fun _ => rfl
  have hincl (j : ℕ) (hj : ((s.detach i).node j).state = .included) :
      (s.node j).state = .included :=
    (h.detach_state_of_not_mem hi (h.not_mem_of_live_detach hi (.inr hj))).symm.trans hj
  have hexpanded (j : ℕ) (hj : j ≠ i) :
      ((s.detach i).node j).expanded = (s.node j).expanded := by
    rw [h.detach_node hi, if_neg hj]
    split
    · rfl
    · rfl
  exact {
    tree := by
      refine h.tree.of_sites size_detach hsite fun j => ?_
      rw [children_eq, children_eq]
      by_cases hj : j = i
      · rw [hj, h.children_detach hi]
        exact List.nil_sublist _
      · rw [h.detach_children hi hj]
    root_included := by
      rw [h.detach_state_of_not_mem hi h.root_not_mem_descendants, h.root_included]
    fresh j hj := by
      by_cases hji : j = i
      · rw [hji, h.children_detach hi]
      · rw [h.detach_children hi hji]
        exact h.fresh j (hexpanded j hji ▸ hj)
    resolved j hj := by
      have hji : j ≠ i := by
        rintro rfl
        rw [h.expanded_detach hi] at hj
        cases hj
      rw [hresolved]
      exact h.resolved j (hexpanded j hji ▸ hj)
    idle j hj := by
      by_cases hji : j = i
      · rw [hji, h.expanded_detach hi]
      · rw [hexpanded j hji]
        rw [h.detach_state_of_not_mem hi (h.not_mem_of_live_detach hi (.inl hj))] at hj
        exact h.idle j hj
    contender j hj := by
      obtain ⟨hj, hd⟩ := mem_contenders_detach.mp hj
      obtain ⟨q, hq, hm⟩ := h.contender j hj
      have hqi : q ≠ i := fun he => hd (h.mem_descendants_of_child hm (.inl he))
      exact ⟨q, (hparent j).symm ▸ hq, (h.detach_children hi hqi).symm ▸ hm⟩
    live j hr hj := by
      have hd := h.not_mem_of_live_detach hi hj
      rw [h.detach_state_of_not_mem hi hd] at hj
      obtain ⟨q, hq, hqi, hm⟩ := h.parent_of_live hr hj
      have hqd : q ∉ s.graph.descendants i :=
        fun hqd => hd (h.mem_descendants_of_child hm (.inr hqd))
      rw [hparent]
      exact ⟨mem_contenders_detach.mpr ⟨(h.live j hr hj).1, hd⟩, q, hq,
        (h.detach_state_of_not_mem hi hqd).trans hqi⟩
    unique j k hj hk hji hki := by
      simp only [hkey]
      exact h.unique j k hj hk (hincl j hji) (hincl k hki)
    attached q d hq hd := by
      obtain ⟨hd, hqi, hn⟩ := h.child_of_live_detach hi hq hd
      rw [h.detach_state_of_not_mem hi hn]
      exact (h.attached q d hqi hd).imp_left fun hc => mem_contenders_detach.mpr ⟨hc, hn⟩
    versioned j hr hj := by
      rw [hversion]
      exact h.versioned j hr (hincl j hj)
    settled q d hq hd hs := by
      obtain ⟨hd, hqi, hn⟩ := h.child_of_live_detach hi hq hd
      rw [h.detach_state_of_not_mem hi hn] at hs
      rw [hversion]
      exact h.settled q d hqi hd hs }

theorem seated_detach (hs : s.Seated ls) (hls : ∀ k ∈ ls, k ∈ ks)
    (hks : ∀ d : ℕ, d ∈ s.graph.descendants i → (s.node d).state = .included →
      (s.node d).key ∈ ks) : (s.detach i).Seated ks := by
  have hsite (j : ℕ) : ((s.detach i).node j).site = (s.node j).site :=
    view_detach Node.site (fun _ _ => rfl) fun _ => rfl
  intro m p hm
  simp only [fun j => Node.parent_of_site (hsite j), fun j => Node.key_of_site (hsite j)]
  intro hmp hpl ho
  obtain ⟨hm, hmd⟩ := mem_contenders_detach.mp hm
  have hpd := h.not_mem_of_live_detach hi (.inr hpl)
  rw [h.detach_state_of_not_mem hi hpd] at hpl
  rw [h.detach_state_of_not_mem hi hmd] at ho
  obtain hw | ⟨w, hr, hw, hk⟩ := hs m p hm hmp hpl ho
  · exact .inl (hls _ hw)
  · by_cases hd : w ∈ s.graph.descendants i
    · exact .inl (hk ▸ hks w hd hw)
    · exact .inr ⟨w, hr, (h.detach_state_of_not_mem hi hd).trans hw, hk⟩

end Detach

end Sound

end Mediation.Collection
