import Mediation.Proofs.Collection.Origin

/-! # Pointers to winners

A loser points at the winner that it lost to. When that one loses its place, its followers are
made to point at the next one: by the newcomer that displaces it, or by the election after a loss.
-/

namespace Mediation.Collection

variable {rules : Rules} {ev : Evidence} {s t : Collection} {E : Finset ℕ} {i j w x : ℕ}
  {k : Key}

theorem kept_enqueue (s : Collection) (i j : NodeId) :
    ((s.enqueue i).node j).kept = (s.node j).kept := by
  unfold enqueue
  split <;> rfl

theorem kept_disableBelow (s : Collection) (i j : NodeId) :
    ((s.disableBelow i).node j).kept = (s.node j).kept :=
  view_disableBelow Node.kept fun _ _ => rfl

theorem kept_prune (s : Collection) (i j : NodeId) :
    ((s.prune i).node j).kept = (s.node j).kept := by
  rw [node_prune]
  split <;> rfl

theorem kept_rescope (s : Collection) (i j : NodeId) :
    ((s.rescope i).node j).kept = (s.node j).kept := by
  unfold rescope
  dsimp only
  cases (do
    let parent ← (s.node i).parent
    (s.node parent).artifact.scope.inherit (s.node i).declaredScope) with
  | none => rfl
  | some scope =>
    apply view_update Node.kept
    intro _
    rfl

theorem kept_widenScope (s : Collection) (w x j : NodeId) :
    ((s.widenScope w x).node j).kept = (s.node j).kept := by
  have hfold (ds : List NodeId) (s : Collection) :
      ((ds.foldl rescope s).node j).kept = (s.node j).kept := by
    induction ds generalizing s with
    | nil => rfl
    | cons d ds ih => rw [List.foldl_cons, ih, kept_rescope]
  unfold widenScope
  dsimp only
  split
  · rfl
  · split
    · rfl
    · rw [hfold]
      apply view_update Node.kept
      intro _
      rfl

/-- A redirection reaches the contenders of an identity that point at the old winner. -/
theorem kept_redirect (hc : ∀ i ∈ s.contenders, i < s.graph.size) (k : Key) (old new : NodeId) :
    ((s.redirect k old new).node j).kept =
      if j ∈ s.contenders ∧ (s.node j).key = k ∧ (s.node j).kept = some old then some new
      else (s.node j).kept := by
  unfold redirect
  rw [node_foldl_update]
  · by_cases hj : j ∈ s.contenders
    · have hlt := hc j hj
      by_cases hk : (s.node j).key = k ∧ (s.node j).kept = some old
      · simp [mem_contendersOf, hj, hk, hlt]
      · simp [mem_contendersOf, hj, hk]
    · simp [mem_contendersOf, hj]
  · intro n
    rfl

theorem kept_yieldTo (hx : x < s.graph.size) :
    ((s.yieldTo w x).node j).kept = if j = x then some w else (s.node j).kept := by
  unfold yieldTo
  rw [kept_widenScope, node_emit, node_update]
  by_cases hj : j = x
  · simp [hj, hx]
  · simp [hj, Ne.symm hj]

theorem kept_collapse (s : Collection) (i j : NodeId) (e : NodeError) :
    ((s.collapse i e).1.node j).kept = (s.node j).kept := by
  have h : (((s.update i fun n => { n with state := .failed }).report i e).node j).kept =
      (s.node j).kept := by
    apply view_update Node.kept
    intro _
    rfl
  unfold collapse
  dsimp only
  split
  · split
    · rw [kept_disableBelow, h]
    · exact h
  · exact h

theorem kept_rebase (s : Collection) (i j : NodeId) (v : Version) :
    ((s.rebase i v).1.node j).kept = (s.node j).kept := by
  have h : ((s.select i v).node j).kept = (s.node j).kept := view_select Node.kept v fun _ => rfl
  unfold rebase
  dsimp only
  split
  · rw [kept_enqueue, kept_prune, kept_disableBelow, h]
  · exact h

/-- A newcomer that displaces a winner points nowhere, and the winner and its followers point at
the newcomer. -/
theorem kept_displace (hc : ∀ i ∈ s.contenders, i < s.graph.size) (hi : i < s.graph.size)
    (hx : x < s.graph.size) (hne : x ≠ i) (k : Key) :
    ((s.displace k i x).1.node j).kept =
      if j = x then none
      else if j = i ∨ j ∈ s.contenders ∧ (s.node j).key = k ∧ (s.node j).kept = some i then some x
      else (s.node j).kept := by
  have hnext {u : Collection} (hsize : u.graph.size = s.graph.size)
      (hcon : u.contenders = s.contenders) (hkey : (u.node j).key = (s.node j).key)
      (hkept : (u.node j).kept = if j = i then some x else (s.node j).kept) :
      ((((u.accept x).redirect k i x).widenScope x i).node j).kept =
        if j = x then none
        else if j = i ∨ j ∈ s.contenders ∧ (s.node j).key = k ∧ (s.node j).kept = some i then some x
        else (s.node j).kept := by
    have ha : ((u.accept x).node j).kept =
        if j = x then none else if j = i then some x else (s.node j).kept := by
      rw [node_accept, hsize]
      by_cases hj : j = x
      · simp [hj, hx]
      · simp [hj, Ne.symm hj, hkept]
    have hbound : ∀ c ∈ (u.accept x).contenders, c < (u.accept x).graph.size := by
      rw [contenders_accept, size_accept, hcon, hsize]
      exact hc
    rw [kept_widenScope, kept_redirect hbound, ha, contenders_accept, hcon,
      view_accept Node.key fun _ => rfl, hkey]
    by_cases hj : j = x
    · simp [hj]
    · by_cases hji : j = i
      · simp [hji, hne, Ne.symm hne]
      · simp [hj, hji]
  have hupd : ((s.update i fun n =>
      { n with state := .omittedForConflict, kept := some x }).node j).kept =
        if j = i then some x else (s.node j).kept := by
    rw [node_update]
    by_cases hj : j = i
    · simp [hj, hi]
    · simp [hj, Ne.symm hj]
  unfold displace
  dsimp only
  split
  · rw [kept_disableBelow]
    exact hnext (Graph.size_update _ _ _) rfl (view_update Node.key (by intro _; rfl) s i j) hupd
  · exact hnext (Graph.size_update _ _ _) rfl (view_update Node.key (by intro _; rfl) s i j) hupd

/-- A revived node points nowhere, and the candidates of its election point at it. -/
theorem kept_revive (hw : w < s.graph.size) {cs : List NodeId} (hc : ∀ c ∈ cs, c < s.graph.size) :
    ((s.revive w cs).node j).kept =
      if j = w then none else if j ∈ cs then some w else (s.node j).kept := by
  have hsize : (cs.foldl (fun s c => s.update c fun n => { n with kept := some w }) s).graph.size =
      s.graph.size := size_foldl_update cs s
  have hfold : ((cs.foldl (fun s c => s.update c fun n => { n with kept := some w }) s).node j).kept
      = if j ∈ cs then some w else (s.node j).kept := by
    rw [node_foldl_update]
    · by_cases hj : j ∈ cs
      · simp [hj, hc j hj]
      · simp [hj]
    · intro n
      rfl
  have haccept {t : Collection} (ht : t.graph.size = s.graph.size) :
      (((t.accept w).enqueue w).node j).kept = if j = w then none else (t.node j).kept := by
    rw [kept_enqueue, node_accept, ht]
    by_cases hj : j = w
    · simp [hj, hw]
    · simp [hj, Ne.symm hj]
  unfold revive
  dsimp only
  split
  · rw [haccept ((Graph.size_update _ _ _).trans hsize), kept_prune, hfold]
  · rw [haccept hsize, hfold]

/-- Whether winners point nowhere, and losers at the winners of their identities. -/
structure Pointing (s : Collection) : Prop where
  root : (s.node Graph.root).kept = none
  winner : ∀ w : ℕ, s.InPlay w → (s.node w).state = .included → (s.node w).kept = none
  loser : ∀ w m : ℕ, s.InPlay w → s.InPlay m → (s.node w).state = .included →
    (s.node m).state = .omittedForConflict → (s.node w).key = (s.node m).key →
      (s.node m).kept = some w

namespace Pointing

/-- A change of one node by which that one fails, or keeps its state, and which lets all nodes
point where they did. -/
theorem of_fades (h : s.Pointing) (hf : Fades {i} s t)
    (hi : (t.node i).state = .failed ∨ (t.node i).state = (s.node i).state)
    (hk : ∀ j : ℕ, (t.node j).kept = (s.node j).kept) : t.Pointing := by
  have hstate {j : ℕ} (hj : t.InPlay j) (hn : (t.node j).state ≠ .failed) :
      (s.node j).state = (t.node j).state := by
    by_cases hji : j = i
    · subst hji
      exact (hi.resolve_left hn).symm
    · exact (hf.state (by simpa using hji) hj).symm
  exact {
    root := by
      rw [hk]
      exact h.root
    winner w hw hwi := by
      rw [hk]
      exact h.winner w (hf.inPlay w hw) ((hstate hw (by simp [hwi])).trans hwi)
    loser w m hw hm hwi hmo hkey := by
      rw [hk]
      rw [Node.key_of_site (hf.site w), Node.key_of_site (hf.site m)] at hkey
      exact h.loser w m (hf.inPlay w hw) (hf.inPlay m hm) ((hstate hw (by simp [hwi])).trans hwi)
        ((hstate hm (by simp [hmo])).trans hmo) hkey }

/-- A change within one identity that leaves all losers of it following its winner. -/
theorem of_identity (h : s.Pointing) (hf : Fades E s t) (hE : ∀ j ∈ E, (s.node j).key = k)
    (hnone : (t.node w).kept = none)
    (hwinner : ∀ v : ℕ, t.InPlay v → (t.node v).state = .included → (t.node v).key = k → v = w)
    (hloser : ∀ m : ℕ, (t.node w).state = .included → t.InPlay m →
      (t.node m).state = .omittedForConflict → (t.node m).key = k → (t.node m).kept = some w)
    (hother : ∀ j : ℕ, j = Graph.root ∨ (s.node j).key ≠ k → (t.node j).kept = (s.node j).kept) :
    t.Pointing := by
  have hkey (j : ℕ) : (t.node j).key = (s.node j).key := Node.key_of_site (hf.site j)
  have hstate {j : ℕ} (hj : t.InPlay j) (hk : (t.node j).key ≠ k) :
      (s.node j).state = (t.node j).state := by
    refine (hf.state (fun hjE => hk ?_) hj).symm
    exact (hkey j).trans (hE j hjE)
  exact {
    root := by
      rw [hother _ (.inl rfl)]
      exact h.root
    winner v hv hvi := by
      by_cases hk : (t.node v).key = k
      · rw [hwinner v hv hvi hk]
        exact hnone
      · rw [hother v (.inr (hkey v ▸ hk))]
        exact h.winner v (hf.inPlay v hv) ((hstate hv hk).trans hvi)
    loser v m hv hm hvi hmo hvm := by
      by_cases hk : (t.node m).key = k
      · obtain rfl : v = w := hwinner v hv hvi (hvm.trans hk)
        exact hloser m hvi hm hmo hk
      · have hvk : (t.node v).key ≠ k := fun he => hk (hvm.symm.trans he)
        rw [hother m (.inr (hkey m ▸ hk))]
        exact h.loser v m (hf.inPlay v hv) (hf.inPlay m hm) ((hstate hv hvk).trans hvi)
          ((hstate hm hk).trans hmo) (by rw [← hkey, ← hkey, hvm]) }

theorem select (h : s.Pointing) (v : Version) : (s.select i v).Pointing :=
  h.of_fades (.select (Finset.mem_singleton_self i) v)
    (.inr ((sameShape_select s i v).state i)) fun _ => view_select Node.kept v fun _ => rfl

theorem constrain (h : s.Pointing) (c : Constraint) : (s.constrain i c).Pointing := by
  refine h.of_fades (.constrain (Finset.mem_singleton_self i) c)
    (.inr ((sameShape_constrain s i c).state i)) fun j => ?_
  apply view_update Node.kept
  intro _
  rfl

theorem collapse (h : s.Pointing) (hs : s.Sound) (hi : i ∈ s.contenders)
    (hl : (s.node i).state = .pending ∨ (s.node i).state = .included) (e : NodeError) :
    (s.collapse i e).1.Pointing :=
  h.of_fades (.collapse hs hi (Finset.mem_singleton_self i) hl e)
    (.inl (state_collapse hs hi hl e)) fun j => kept_collapse s i j e

theorem rebase (h : s.Pointing) (hs : s.Sound) (hi : i ∈ s.contenders) (v : Version) :
    (s.rebase i v).1.Pointing :=
  h.of_fades (.rebase hs hi (Finset.mem_singleton_self i) v)
    (.inr ((Node.state_of_core (core_rebase hs hi v)).trans rfl)) fun j => kept_rebase s i j v

theorem accept (h : s.Pointing) (hst : Steady (s, [])) (hp : (s.node x).state = .pending)
    (hw : s.winner? (s.node x).key = none) (ht : (s.accept x).Sound) : (s.accept x).Pointing := by
  have hs := hst.sound
  have hx := Steady.pending_contender hs hp
  have hxr := hs.ne_root_of_contender hx
  have hf : Fades {x} s (s.accept x) :=
    .accept hs hx (Finset.mem_singleton_self x) (hs.idle x hp)
  have hself : (s.accept x).node x = { s.node x with state := .included, kept := none } := by
    rw [hs.accept_node hx, if_pos rfl]
  have hnode {j : ℕ} (hj : j ≠ x) : (s.accept x).node j = s.node j := by
    rw [hs.accept_node hx, if_neg hj]
  refine h.of_identity hf (k := (s.node x).key) (w := x) (by simp) (by rw [hself]) ?_ ?_ ?_
  · intro v hv hvi hvk
    refine ht.unique v x (ht.ne_root_of_contender hv.1) hxr hvi (by rw [hself]) (hvk.trans ?_)
    rw [hself]
    rfl
  · rintro m - hm hmo hmk
    have hmx : m ≠ x := by
      rintro rfl
      simp [hself] at hmo
    obtain ⟨hc, p, hpar, hpi⟩ := hf.inPlay m hm
    rw [hnode hmx] at hmo hmk
    obtain ⟨v, hr, hv, hvk⟩ := (hst.seated m p hc hpar hpi hmo).resolve_left List.not_mem_nil
    exact absurd (hvk.trans hmk) (hs.winner?_eq_none_iff.mp hw v hr hv)
  · intro j hj
    have hjx : j ≠ x := by
      rintro rfl
      exact hj.elim hxr fun hk => hk rfl
    rw [hnode hjx]

theorem yieldTo (h : s.Pointing) (hs : s.Sound) (hp : (s.node x).state = .pending)
    (hw : s.winner? (s.node x).key = some i) : (s.yieldTo i x).Pointing := by
  have hx := Steady.pending_contender hs hp
  have hxr := hs.ne_root_of_contender hx
  obtain ⟨hi, hik, hii⟩ := of_winner?_eq_some hw
  have hir := hs.ne_root_of_contender hi
  have hf : Fades {x} s (s.yieldTo i x) := .yieldTo hs hp (Finset.mem_singleton_self x) i
  have hself : ((s.yieldTo i x).node x).state = .omittedForConflict :=
    Node.state_of_core (core_yieldTo hs hp i)
  have hkept (j : ℕ) := kept_yieldTo (w := i) (j := j) (hs.lt_size_of_contender hx)
  have hix : i ≠ x := by
    rintro rfl
    rw [hp] at hii
    cases hii
  generalize s.yieldTo i x = t at hf hself hkept ⊢
  have hkey (j : ℕ) : (t.node j).key = (s.node j).key := Node.key_of_site (hf.site j)
  have hstate {j : ℕ} (hj : j ≠ x) (hjp : t.InPlay j) : (t.node j).state = (s.node j).state :=
    hf.state (by simpa using hj) hjp
  refine h.of_identity hf (k := (s.node x).key) (w := i) (by simp) ?_ ?_ ?_ ?_
  · rw [hkept, if_neg hix]
    exact h.winner i (hs.inPlay hir (.inr hii)) hii
  · intro v hv hvi hvk
    have hvx : v ≠ x := by
      rintro rfl
      rw [hself] at hvi
      cases hvi
    exact hs.unique v i (hs.ne_root_of_contender (hf.inPlay v hv).1) hir
      ((hstate hvx hv).symm.trans hvi) hii ((hkey v).symm.trans (hvk.trans hik.symm))
  · rintro m - hm hmo hmk
    rw [hkept]
    split
    · rfl
    · rename_i hmx
      exact h.loser i m (hs.inPlay hir (.inr hii)) (hf.inPlay m hm) hii
        ((hstate hmx hm).symm.trans hmo) (hik.trans (hmk.symm.trans (hkey m)))
  · intro j hj
    rw [hkept, if_neg]
    rintro rfl
    exact hj.elim hxr fun hk => hk rfl

theorem displace (h : s.Pointing) (hs : s.Sound) (hp : (s.node x).state = .pending)
    (hw : s.winner? (s.node x).key = some i) :
    (s.displace (s.node x).key i x).1.Pointing := by
  have hx := Steady.pending_contender hs hp
  have hxr := hs.ne_root_of_contender hx
  obtain ⟨hi, hik, hii⟩ := of_winner?_eq_some hw
  have hir := hs.ne_root_of_contender hi
  have hxi : x ≠ i := by
    rintro rfl
    rw [hp] at hii
    cases hii
  have hf : Fades {i, x} s (s.displace (s.node x).key i x).1 :=
    .displace hs hp hw (by simp) (by simp)
  have hlost : ((s.displace (s.node x).key i x).1.node i).state = .omittedForConflict :=
    Node.state_of_core (core_displace hs hp hw).1
  have hkept (j : ℕ) := kept_displace (j := j) (fun c hc => hs.lt_size_of_contender hc)
    (hs.lt_size_of_contender hi) (hs.lt_size_of_contender hx) hxi (s.node x).key
  generalize (s.displace (s.node x).key i x).1 = t at hf hlost hkept ⊢
  have hkey (j : ℕ) : (t.node j).key = (s.node j).key := Node.key_of_site (hf.site j)
  have hstate {j : ℕ} (hji : j ≠ i) (hjx : j ≠ x) (hjp : t.InPlay j) :
      (t.node j).state = (s.node j).state := hf.state (by simp [hji, hjx]) hjp
  refine h.of_identity hf (k := (s.node x).key) (w := x) (by simp [hik]) ?_ ?_ ?_ ?_
  · rw [hkept, if_pos rfl]
  · intro v hv hvi hvk
    have hvl : v ≠ i := by
      rintro rfl
      rw [hlost] at hvi
      cases hvi
    by_contra hvx
    exact hvl (hs.unique v i (hs.ne_root_of_contender (hf.inPlay v hv).1) hir
      ((hstate hvl hvx hv).symm.trans hvi) hii ((hkey v).symm.trans (hvk.trans hik.symm)))
  · intro m hxs hm hmo hmk
    have hmx : m ≠ x := by
      rintro rfl
      rw [hxs] at hmo
      cases hmo
    rw [hkept, if_neg hmx, if_pos]
    by_cases hmi : m = i
    · exact .inl hmi
    · have hms := (hstate hmi hmx hm).symm.trans hmo
      have hmk := (hkey m).symm.trans hmk
      exact .inr ⟨(hf.inPlay m hm).1, hmk,
        h.loser i m (hs.inPlay hir (.inr hii)) (hf.inPlay m hm) hii hms (hik.trans hmk.symm)⟩
  · intro j hj
    rw [hkept, if_neg, if_neg]
    · rintro (rfl | ⟨hc, hk, -⟩)
      · exact hj.elim hir fun hk => hk hik
      · exact hj.elim (hs.ne_root_of_contender hc) fun hn => hn hk
    · rintro rfl
      exact hj.elim hxr fun hk => hk rfl

theorem revive (h : s.Pointing) (hs : s.Sound) (hw : i ∈ s.eligible k)
    (ht : (s.revive i (s.eligible k)).Sound) : (s.revive i (s.eligible k)).Pointing := by
  obtain ⟨hi, hik, -⟩ := mem_eligible.mp hw
  have hir := hs.ne_root_of_contender hi
  have hf : Fades {i} s (s.revive i (s.eligible k)) :=
    .revive hs hw (Finset.mem_singleton_self i) _
  have hself : ((s.revive i (s.eligible k)).node i).state = .included :=
    Node.state_of_core (core_revive hs hw _)
  have hbound : ∀ c ∈ s.eligible k, c < s.graph.size := fun c hc =>
    hs.lt_size_of_contender (mem_eligible.mp hc).1
  have hkept (j : ℕ) := kept_revive (j := j) (hs.lt_size_of_contender hi) hbound
  generalize s.revive i (s.eligible k) = t at hf hself hkept ht ⊢
  have hkey (j : ℕ) : (t.node j).key = (s.node j).key := Node.key_of_site (hf.site j)
  refine h.of_identity hf (k := k) (w := i) (by simp [hik]) ?_ ?_ ?_ ?_
  · rw [hkept, if_pos rfl]
  · intro v hv hvi hvk
    exact ht.unique v i (ht.ne_root_of_contender hv.1) hir hvi hself
      (hvk.trans (hik.symm.trans (hkey i).symm))
  · rintro m - hm hmo hmk
    have hmi : m ≠ i := by
      rintro rfl
      rw [hself] at hmo
      cases hmo
    have hms := (hf.state (by simpa using hmi) hm).symm.trans hmo
    obtain ⟨hc, p, hpar, hpi⟩ := hf.inPlay m hm
    obtain ⟨q, hq, hmq⟩ := hs.contender m hc
    obtain rfl : q = p := Option.some.inj (hq.symm.trans hpar)
    rw [hkept, if_neg hmi, if_pos]
    exact mem_eligible.mpr ⟨hc, (hkey m).symm.trans hmk, hms, hs.settled q m hpi hmq hms, q, hpar,
      hpi⟩
  · intro j hj
    have hcandidate : j ∉ s.eligible k := fun hc =>
      hj.elim (hs.ne_root_of_contender (mem_eligible.mp hc).1) fun hk =>
        hk (mem_eligible.mp hc).2.1
    have hji : j ≠ i := fun he => hcandidate (he ▸ hw)
    rw [hkept, if_neg hji, if_neg hcandidate]

theorem move {a b : Situation} (h : a.1.Pointing) (m : Move rules ev x a b) (hst : Steady a) :
    b.1.Pointing := by
  have hs := hst.sound
  have ht := (m.steady hst).sound
  cases m with
  | tell e => exact ⟨h.root, h.winner, h.loser⟩
  | choose => exact h.select _
  | tighten => exact h.constrain _
  | retain => exact h.constrain _
  | @shift s i c v hn =>
    exact (h.constrain c).rebase ((sameShape_constrain s i c).sound hs) hn.rival.mem v
  | @abandon s i c e hn =>
    exact (h.constrain c).collapse ((sameShape_constrain s i c).sound hs) hn.rival.mem
      (.inr hn.state_constrain) e
  | reject e hp => exact h.collapse hs (Steady.pending_contender hs hp) (.inl hp) e
  | seat hp _ hw => exact h.accept hst hp hw ht
  | yield hp _ hw he hne =>
    rw [eq_of_elect he hne]
    exact h.yieldTo hs hp hw
  | displace hp _ hw => exact h.displace hs hp hw
  | lose e hr hi =>
    have hi := isIncluded_iff.mp hi
    exact h.collapse hs (hs.live x hr (.inr hi)).1 (.inr hi) e
  | revive _ he => exact h.revive hs (mem_of_elect he) ht
  | skip => exact h

theorem expand (h : s.Pointing) (hs : s.Sound) (hx : x < s.graph.size) (d : Descriptor) :
    (s.expand rules x d).2.Pointing := by
  have hkept {j : ℕ} (hj : j < s.graph.size) :
      ((s.expand rules x d).2.node j).kept = (s.node j).kept :=
    view_expand hx d Node.kept (fun _ => rfl) (fun _ _ => rfl) hj
  exact {
    root := (hkept hs.tree.size_pos).trans h.root
    winner w hwp hwi := by
      obtain ⟨hws, hwp, hwi⟩ := inPlay_of_expand hx d hs hwp hwi (by decide)
      exact (hkept hws).trans (h.winner w hwp hwi)
    loser w m hwp hmp hwi hmo hkey := by
      obtain ⟨hws, hwp, hwi⟩ := inPlay_of_expand hx d hs hwp hwi (by decide)
      obtain ⟨hms, hmp, hmo⟩ := inPlay_of_expand hx d hs hmp hmo (by decide)
      rw [key_expand hx d hws, key_expand hx d hms] at hkey
      exact (hkept hms).trans (h.loser w m hwp hmp hwi hmo hkey) }

end Pointing

end Mediation.Collection
