import Mediation.Proofs.Collection.Steady

/-! # What is still waiting

While a node is at hand no other node becomes pending, and a node that is included and
not expanded is the one at hand, was waiting before, or is told to be expanded once more.
-/

namespace Mediation.Collection

variable {rules : Rules} {ev : Evidence} {s t u : Collection} {i j x w : ℕ} {k : Key}
  {ks : List Key}

/-- What a change leaves of the nodes that wait, while the node `x` is at hand. -/
structure Keeps (x : ℕ) (s t : Collection) : Prop where
  size : t.graph.size = s.graph.size
  site : ∀ j : ℕ, (t.node j).site = (s.node j).site
  requeue : ∀ j ∈ s.requeue, j ∈ t.requeue
  opened : (t.node Graph.root).expanded = (s.node Graph.root).expanded
  version : ∀ j : ℕ, (t.node j).version.isSome = true →
    (s.node j).version.isSome = true ∨ j = x
  pending : ∀ j : ℕ, (t.node j).state = .pending → (s.node j).state = .pending ∧
    (j ≠ x → (t.node j).core = (s.node j).core)
  waiting : ∀ j : ℕ, (t.node j).state = .included → (t.node j).expanded = false →
    j ∈ t.requeue ∨ j = x ∨ ((s.node j).state = .included ∧ (s.node j).expanded = false)

def IsBlank (s : Collection) : Prop :=
  ∀ j : ℕ, (s.node j).state = .pending → (s.node j).constraint = (s.node j).declaredConstraint

/-- What a change leaves of the versions while descriptors are read. -/
structure Rests (s t : Collection) : Prop where
  version : ∀ j : ℕ, (t.node j).version = (s.node j).version
  expanded : ∀ j : ℕ, (t.node j).expanded = true → (s.node j).expanded = true

namespace Keeps

theorem refl (x : ℕ) (s : Collection) : Keeps x s s :=
  ⟨rfl, fun _ => rfl, fun _ h => h, rfl, fun _ h => .inl h, fun _ h => ⟨h, fun _ => rfl⟩,
    fun _ hi hx => .inr (.inr ⟨hi, hx⟩)⟩

theorem trans (h : Keeps x s t) (h' : Keeps x t u) : Keeps x s u where
  size := h'.size.trans h.size
  site j := (h'.site j).trans (h.site j)
  requeue j hj := h'.requeue j (h.requeue j hj)
  opened := h'.opened.trans h.opened
  version j hj := (h'.version j hj).elim (h.version j) .inr
  pending j hj := by
    obtain ⟨ht, he'⟩ := h'.pending j hj
    obtain ⟨hs, he⟩ := h.pending j ht
    exact ⟨hs, fun hjx => (he' hjx).trans (he hjx)⟩
  waiting j hj hx := by
    obtain hq | hjx | ⟨hj, hx⟩ := h'.waiting j hj hx
    · exact .inl hq
    · exact .inr (.inl hjx)
    · exact (h.waiting j hj hx).imp_left (h'.requeue j)

/-- Only the node at hand may be given a constraint while it is pending. -/
theorem isBlank (h : Keeps x s t) (hb : s.IsBlank) (hx : (t.node x).state ≠ .pending) :
    t.IsBlank := by
  intro j hj
  obtain ⟨hjs, hc⟩ := h.pending j hj
  have hjx : j ≠ x := fun he => hx (he ▸ hj)
  have h₁ : (t.node j).constraint = (s.node j).constraint :=
    (congrArg Node.constraint (hc hjx) :)
  have h₂ : (t.node j).declaredConstraint = (s.node j).declaredConstraint :=
    (congrArg Node.declaredConstraint (hc hjx) :)
  rw [h₁, h₂, hb j hjs]

theorem of_agrees (h : s.Agrees t) (hq : ∀ j ∈ s.requeue, j ∈ t.requeue) : Keeps x s t where
  size := h.size
  site := h.site
  requeue := hq
  opened := h.expanded _
  version j hj := .inl (h.version j ▸ hj)
  pending j hj := ⟨(h.state j).symm.trans hj, fun _ => h.core j⟩
  waiting j hj hx := .inr (.inr ⟨(h.state j).symm.trans hj, (h.expanded j).symm.trans hx⟩)

end Keeps

namespace Rests

theorem refl (s : Collection) : Rests s s := ⟨fun _ => rfl, fun _ h => h⟩

theorem trans (h : Rests s t) (h' : Rests t u) : Rests s u :=
  ⟨fun j => (h'.version j).trans (h.version j), fun j he => h.expanded j (h'.expanded j he)⟩

theorem of_agrees (h : s.Agrees t) : Rests s t :=
  ⟨h.version, fun j he => (h.expanded j).symm.trans he⟩

end Rests

@[simp] theorem requeue_emit (s : Collection) (e : Event) : (s.emit e).requeue = s.requeue := rfl

@[simp] theorem requeue_prune (s : Collection) (i : NodeId) : (s.prune i).requeue = s.requeue :=
  rfl

@[simp] theorem requeue_accept (s : Collection) (i : NodeId) : (s.accept i).requeue = s.requeue :=
  rfl

theorem requeue_redirect (s : Collection) (k : Key) (old new : NodeId) :
    (s.redirect k old new).requeue = s.requeue := requeue_foldl_update _ _

theorem requeue_rescope (s : Collection) (i : NodeId) : (s.rescope i).requeue = s.requeue := by
  unfold rescope
  dsimp only
  cases (do
    let parent ← (s.node i).parent
    (s.node parent).artifact.scope.inherit (s.node i).declaredScope) <;> rfl

theorem requeue_widenScope (s : Collection) (winner loser : NodeId) :
    (s.widenScope winner loser).requeue = s.requeue := by
  have hf (ds : List NodeId) (s : Collection) : (ds.foldl rescope s).requeue = s.requeue := by
    induction ds generalizing s with
    | nil => rfl
    | cons d ds ih => rw [List.foldl_cons, ih, requeue_rescope]
  unfold widenScope
  dsimp only
  split
  · rfl
  · split
    · rfl
    · rw [hf]; rfl

theorem requeue_yieldTo : (s.yieldTo w x).requeue = s.requeue := requeue_widenScope _ _ _

theorem requeue_displace : (s.displace k i x).1.requeue = s.requeue := by
  unfold displace
  dsimp only
  split
  · rw [requeue_disableBelow, requeue_widenScope, requeue_redirect]; rfl
  · rw [requeue_widenScope, requeue_redirect]; rfl

theorem requeue_collapse (e : NodeError) : (s.collapse i e).1.requeue = s.requeue := by
  unfold collapse
  dsimp only
  split
  · split
    · rw [requeue_disableBelow]; rfl
    · rfl
  · rfl

theorem mem_requeue_enqueue : j ∈ (s.enqueue i).requeue ↔ j ∈ s.requeue ∨ j = i := by
  unfold enqueue
  split
  · rename_i h
    have hi : i ∈ s.requeue := by simpa using h
    exact ⟨.inl, fun h => h.elim (fun h => h) fun h => h ▸ hi⟩
  · simp

theorem mem_requeue_rebase (v : Version) : j ∈ (s.rebase i v).1.requeue ↔
    j ∈ s.requeue ∨ j = i ∧ (s.node i).expanded = true := by
  have hx : ((s.select i v).node i).expanded = (s.node i).expanded :=
    view_select Node.expanded v fun _ => rfl
  unfold rebase
  dsimp only
  rw [hx]
  split
  · rename_i he
    rw [mem_requeue_enqueue]
    simp only [he, and_true]
    rw [requeue_prune, requeue_disableBelow]
    rfl
  · rename_i he
    simp only [he]
    simp [select]

theorem mem_requeue_revive (cs : List NodeId) :
    j ∈ (s.revive w cs).requeue ↔ j ∈ s.requeue ∨ j = w := by
  unfold revive
  dsimp only
  rw [mem_requeue_enqueue]
  refine or_congr_left ?_
  split
  · rw [requeue_accept, requeue_prune, requeue_foldl_update]
  · rw [requeue_accept, requeue_foldl_update]

namespace Keeps

theorem select (s : Collection) (x : ℕ) (v : Version) : Keeps x s (s.select x v) := by
  have hview {α : Type} (f : Node → α)
      (hf : ∀ n : Node, f { n with artifact := n.artifact.select v } = f n) (j : ℕ) :
      f ((s.select x v).node j) = f (s.node j) := view_update f hf s x j
  have hstate := hview Node.state fun _ => rfl
  have hexpanded := hview Node.expanded fun _ => rfl
  exact {
    size := Graph.size_update _ _ _
    site := hview Node.site fun _ => rfl
    requeue := fun _ h => h
    opened := hexpanded _
    version j hj := by
      by_cases hjx : j = x
      · exact .inr hjx
      · rw [Collection.select, node_update_of_ne (Ne.symm hjx)] at hj
        exact .inl hj
    pending j hj := by
      refine ⟨(hstate j).symm.trans hj, fun hjx => ?_⟩
      rw [Collection.select, node_update_of_ne (Ne.symm hjx)]
    waiting j hj he := .inr (.inr ⟨(hstate j).symm.trans hj, (hexpanded j).symm.trans he⟩) }

/-- A constraint may be given to the node at hand, or to one that is not pending. -/
theorem constrain (hi : i = x ∨ (s.node i).state ≠ .pending) (c : Constraint) :
    Keeps x s (s.constrain i c) := by
  have hview {α : Type} (f : Node → α) (hf : ∀ n : Node, f { n with constraint := c } = f n)
      (j : ℕ) : f ((s.constrain i c).node j) = f (s.node j) := view_update f hf s i j
  have hstate := hview Node.state fun _ => rfl
  have hexpanded := hview Node.expanded fun _ => rfl
  exact {
    size := Graph.size_update _ _ _
    site := hview Node.site fun _ => rfl
    requeue := fun _ h => h
    opened := hexpanded _
    version j hj := .inl (hview Node.version (fun _ => rfl) j ▸ hj)
    pending j hj := by
      rw [hstate] at hj
      refine ⟨hj, fun hjx => ?_⟩
      have hij : i ≠ j := by
        rintro rfl
        exact hi.elim hjx fun h => h hj
      rw [Collection.constrain, node_update_of_ne hij]
    waiting j hj he := .inr (.inr ⟨(hstate j).symm.trans hj, (hexpanded j).symm.trans he⟩) }

theorem topple (hs : s.Sound) (hi : i ∈ s.contenders) {st : NodeState} (hp : st ≠ .pending)
    (hn : st ≠ .included) : Keeps x s (s.topple i st) where
  size := size_topple
  site _ := view_topple Node.site fun _ _ => rfl
  requeue j hj := by rw [Collection.topple, requeue_disableBelow]; exact hj
  opened := view_topple Node.expanded fun _ _ => rfl
  version j hj := .inl (by rwa [view_topple Node.version fun _ _ => rfl] at hj)
  pending j hj := by
    obtain ⟨-, -, he⟩ := hs.of_live_topple hi hp hn (.inl hj)
    exact ⟨he ▸ hj, fun _ => by rw [he]⟩
  waiting j hj hx := by
    obtain ⟨-, -, he⟩ := hs.of_live_topple hi hp hn (.inr hj)
    exact .inr (.inr ⟨he ▸ hj, he ▸ hx⟩)

theorem accept (hs : s.Sound) (hx : x ∈ s.contenders) : Keeps x s (s.accept x) where
  size := size_accept
  site _ := view_accept Node.site fun _ => rfl
  requeue _ h := h
  opened := view_accept Node.expanded fun _ => rfl
  version j hj := .inl (by rwa [view_accept Node.version fun _ => rfl] at hj)
  pending j hj := by
    rw [hs.accept_node hx] at hj ⊢
    split at hj
    · cases hj
    · rename_i hjx
      rw [if_neg hjx]
      exact ⟨hj, fun _ => rfl⟩
  waiting j hj he := by
    rw [hs.accept_node hx] at hj he
    split at hj
    · rename_i hjx
      exact .inr (.inl hjx)
    · rename_i hjx
      rw [if_neg hjx] at he
      exact .inr (.inr ⟨hj, he⟩)

theorem collapse (h : Steady (s, [])) (hi : i ∈ s.contenders)
    (hl : (s.node i).state = .pending ∨ (s.node i).state = .included) (e : NodeError) :
    Keeps x s (s.collapse i e).1 := by
  have hs := h.sound
  refine (topple hs hi (by decide) (by decide)).trans (of_agrees (agrees_collapse ?_ e) ?_)
  · exact Steady.children_of_fate hs hl
  · rw [requeue_collapse, Collection.topple, requeue_disableBelow]
    exact fun _ h => h

theorem yieldTo (hs : s.Sound) (hp : (s.node x).state = .pending) (w : NodeId) :
    Keeps x s (s.yieldTo w x) := by
  have hx := Steady.pending_contender hs hp
  refine (topple hs hx (by decide) (by decide)).trans
    (of_agrees (agrees_yieldTo (hs.fresh x (hs.idle x hp))) ?_)
  rw [requeue_yieldTo, Collection.topple, requeue_disableBelow]
  exact fun _ h => h

theorem displace (hs : s.Sound) (hp : (s.node x).state = .pending)
    (hw : s.winner? (s.node x).key = some i) : Keeps x s (s.displace (s.node x).key i x).1 := by
  have hx := Steady.pending_contender hs hp
  obtain ⟨hi, -, hii⟩ := of_winner?_eq_some hw
  have hne : x ≠ i := by
    rintro rfl
    rw [hp] at hii
    cases hii
  have ha := agrees_displace hs.tree (hs.lt_size_of_contender hi) (hs.lt_size_of_contender hx)
    hne (hs.fresh i) (s.node x).key hp
  have ht : (s.topple i .omittedForConflict).Sound :=
    hs.topple hi (by decide) (by decide)
      fun _ => hs.versioned i (hs.ne_root_of_contender hi) hii
  have hk : Keeps x s (s.topple i .omittedForConflict) := topple hs hi (by decide) (by decide)
  have hq : (s.topple i .omittedForConflict).requeue = s.requeue := by
    rw [Collection.topple, requeue_disableBelow]; rfl
  split at ha
  · refine hk.trans (of_agrees ha ?_)
    rw [requeue_displace, hq]
    exact fun _ h => h
  · have hxc : x ∈ (s.topple i .omittedForConflict).contenders := by rwa [contenders_topple]
    refine (hk.trans (accept ht hxc)).trans (of_agrees ha ?_)
    rw [requeue_displace, requeue_accept, hq]
    exact fun _ h => h

theorem rebase (hs : s.Sound) (hi : i ∈ s.contenders)
    (hii : (s.node i).state = .included) (v : Version) : Keeps x s (s.rebase i v).1 := by
  have hv := sameShape_select s i v
  have hvs := hv.sound hs
  have ha := agrees_rebase hs.tree (hs.lt_size_of_contender hi) (hs.fresh i) v
  have hd {j : ℕ} (hl : ((s.rebase i v).1.node j).state = .pending ∨
      ((s.rebase i v).1.node j).state = .included) :
      j ∉ (s.select i v).graph.descendants i ∧
        ((s.rebase i v).1.node j).state = (s.node j).state := by
    rw [ha.state] at hl ⊢
    have hn := hvs.not_mem_of_live_detach hi hl
    exact ⟨hn, (hvs.detach_state_of_not_mem hi hn).trans (hv.state j)⟩
  have hnode {j : ℕ} (hj : j ∉ (s.select i v).graph.descendants i) (hji : j ≠ i) :
      ((s.select i v).detach i).node j = s.node j := by
    rw [hvs.detach_node hi, if_neg hji, if_neg hj, Collection.select,
      node_update_of_ne (Ne.symm hji)]
  exact {
    size := ha.size.trans (size_detach.trans hv.size)
    site j := ((ha.site j).trans (view_detach Node.site (fun _ _ => rfl) fun _ => rfl)).trans
      (hv.site j)
    requeue := fun j hj => (mem_requeue_rebase v).mpr (.inl hj)
    opened := by
      rw [ha.expanded, hnode hvs.root_not_mem_descendants (hs.ne_root_of_contender hi).symm]
    version j hj := by
      by_cases hji : j = i
      · exact .inl (hji ▸ hs.versioned i (hs.ne_root_of_contender hi) hii)
      · rw [ha.version, view_detach Node.version (fun _ _ => rfl) fun _ => rfl, Collection.select,
          node_update_of_ne (Ne.symm hji)] at hj
        exact .inl hj
    pending j hj := by
      obtain ⟨hn, hst⟩ := hd (.inl hj)
      have hji : j ≠ i := by
        rintro rfl
        rw [hst, hii] at hj
        cases hj
      exact ⟨hst.symm.trans hj, fun _ => (ha.core j).trans (congrArg Node.core (hnode hn hji))⟩
    waiting j hj he := by
      obtain ⟨hn, hst⟩ := hd (.inr hj)
      rw [mem_requeue_rebase]
      by_cases hji : j = i
      · cases hx : (s.node i).expanded with
        | true => exact .inl (.inr ⟨hji, rfl⟩)
        | false => exact .inr (.inr ⟨hst.symm.trans hj, hji ▸ hx⟩)
      · rw [ha.expanded, hnode hn hji] at he
        exact .inr (.inr ⟨hst.symm.trans hj, he⟩) }

theorem revive (hs : s.Sound) (hw : w ∈ s.eligible k) (cs : List NodeId) :
    Keeps x s (s.revive w cs) := by
  obtain ⟨hwc, -, hws, -⟩ := mem_eligible.mp hw
  have hd := fun j => hs.not_live_below (i := w) (j := j) (by rw [hws]; decide)
  have ha := agrees_revive hs.tree (hs.lt_size_of_contender hwc) (hs.fresh w) hd cs
  have ht := hs.detach hwc
  have hwd : w ∈ (s.detach w).contenders :=
    mem_contenders_detach.mpr ⟨hwc, hs.not_mem_descendants⟩
  have hself : (((s.detach w).accept w).node w).state = .included := by
    rw [ht.accept_node hwd, if_pos rfl]
  have hnode {j : ℕ} (hjw : j ≠ w) (hj : (((s.detach w).accept w).node j).state = .pending ∨
      (((s.detach w).accept w).node j).state = .included) :
      ((s.detach w).accept w).node j = s.node j := by
    rw [ht.accept_node hwd, if_neg hjw] at hj ⊢
    have hn := hs.not_mem_of_live_detach hwc hj
    rw [hs.detach_node hwc, if_neg hjw, if_neg hn]
  have hview {α : Type} (f : Node → α)
      (h₁ : ∀ n : Node, f { n with state := .included, kept := none } = f n)
      (h₂ : ∀ (n : Node) st, f { n with state := st } = f n)
      (h₃ : ∀ n : Node, f { n with children := [], expanded := false } = f n) (j : ℕ) :
      f (((s.detach w).accept w).node j) = f (s.node j) :=
    (view_accept f h₁).trans (view_detach f h₂ h₃)
  exact {
    size := ha.size.trans (size_accept.trans size_detach)
    site j := (ha.site j).trans (hview Node.site (fun _ => rfl) (fun _ _ => rfl) (fun _ => rfl) j)
    requeue := fun j hj => (mem_requeue_revive cs).mpr (.inl hj)
    opened := by
      rw [ha.expanded, view_accept Node.expanded fun _ => rfl, hs.detach_node hwc,
        if_neg (hs.ne_root_of_contender hwc).symm, if_neg hs.root_not_mem_descendants]
    version j hj := by
      rw [ha.version, hview Node.version (fun _ => rfl) (fun _ _ => rfl) fun _ => rfl] at hj
      exact .inl hj
    pending j hj := by
      rw [ha.state] at hj
      have hjw : j ≠ w := by
        rintro rfl
        rw [hself] at hj
        cases hj
      have hn := hnode hjw (.inl hj)
      rw [hn] at hj
      exact ⟨hj, fun _ => (ha.core j).trans (congrArg Node.core hn)⟩
    waiting j hj he := by
      rw [mem_requeue_revive]
      by_cases hjw : j = w
      · exact .inl (.inr hjw)
      · rw [ha.state] at hj
        rw [ha.expanded] at he
        have hn := hnode hjw (.inr hj)
        rw [hn] at hj he
        exact .inr (.inr ⟨hj, he⟩) }

theorem of_move {a b : Situation} (m : Move rules ev x a b) (h : Steady a) : Keeps x a.1 b.1 := by
  cases m with
  | tell e => exact of_agrees (.emit _ e) fun _ h => h
  | choose _ _ => exact select _ _ _
  | tighten _ _ => exact constrain (.inl rfl) _
  | retain hn _ _ =>
    refine constrain (.inr ?_) _
    rw [isIncluded_iff.mp hn.rival.included]
    decide
  | @shift s current c v hn _ _ _ =>
    have hi := isIncluded_iff.mp hn.rival.included
    have hc : Keeps x s (s.constrain current c) :=
      constrain (.inr (by rw [hi]; decide)) c
    have hsh := sameShape_constrain s current c
    exact hc.trans (rebase (hsh.sound h.sound) hn.rival.mem ((hsh.state current).trans hi) v)
  | @abandon s current c e hn _ _ =>
    have hi := isIncluded_iff.mp hn.rival.included
    have hc : Keeps x s (s.constrain current c) :=
      constrain (.inr (by rw [hi]; decide)) c
    have hsh := sameShape_constrain s current c
    exact hc.trans (collapse (hsh.steady h) hn.rival.mem (.inr ((hsh.state current).trans hi)) e)
  | reject e hp _ => exact collapse h (Steady.pending_contender h.sound hp) (.inl hp) e
  | seat hp _ _ _ => exact accept h.sound (Steady.pending_contender h.sound hp)
  | yield hp _ _ _ _ => exact yieldTo h.sound hp _
  | displace hp _ hw _ _ => exact displace h.sound hp hw
  | lose e hr hi _ _ =>
    have hi := isIncluded_iff.mp hi
    exact collapse h (h.sound.live x hr (.inr hi)).1 (.inr hi) e
  | revive _ he => exact revive h.sound (mem_of_elect he) _
  | skip _ => exact refl _ _

theorem of_moves {a b : Situation} (m : Moves rules ev x a b) (h : Steady a) : Keeps x a.1 b.1 :=
  m.preserve_of_steady (P := fun b => Keeps x a.1 b.1) h
    (fun _ _ m hs hk => hk.trans (of_move m hs)) (refl x a.1)

end Keeps

namespace Rests

theorem collapse (hs : s.Sound)
    (hl : (s.node i).state = .pending ∨ (s.node i).state = .included) (e : NodeError) :
    Rests s (s.collapse i e).1 := by
  refine trans ⟨fun j => ?_, fun j he => ?_⟩
    (of_agrees (agrees_collapse (Steady.children_of_fate hs hl) e))
  · exact view_topple Node.version fun _ _ => rfl
  · rwa [view_topple Node.expanded fun _ _ => rfl] at he

theorem revive (hs : s.Sound) (hw : w ∈ s.eligible k) (cs : List NodeId) :
    Rests s (s.revive w cs) := by
  obtain ⟨hwc, -, hws, -⟩ := mem_eligible.mp hw
  have hd := fun j => hs.not_live_below (i := w) (j := j) (by rw [hws]; decide)
  refine trans ⟨fun j => ?_, fun j he => ?_⟩
    (of_agrees (agrees_revive hs.tree (hs.lt_size_of_contender hwc) (hs.fresh w) hd cs))
  · exact (view_accept Node.version fun _ => rfl).trans
      (view_detach Node.version (fun _ _ => rfl) fun _ => rfl)
  · rw [view_accept Node.expanded fun _ => rfl, hs.detach_node hwc] at he
    split at he
    · cases he
    · split at he
      · exact he
      · exact he

end Rests

theorem reelect_induct {P : Collection → Prop} (h : reelect rules ks s = .ok () t)
    (hs : Steady (s, ks)) (hp : P s)
    (hr : ∀ s k ks w, Steady (s, k :: ks) → P s → s.isVacant k = true → w ∈ s.eligible k →
      P (s.revive w (s.eligible k))) : P t := by
  induction ks generalizing s with
  | nil =>
    rw [reelect_nil] at h
    cases h
    exact hp
  | cons k ks ih =>
    rw [reelect_cons] at h
    split at h
    · rename_i hv
      split at h
      · rename_i w he
        have hw := mem_of_elect he
        exact ih h (hs.revive hv hw _) (hr s k ks w hs hp hv hw)
      · cases h
    · rename_i hv
      exact ih h (hs.skip (Bool.eq_false_iff.mpr hv)) hp

theorem Rests.of_reelect (h : reelect rules ks s = .ok () t) (hs : Steady (s, ks)) : Rests s t :=
  reelect_induct h hs (.refl s) fun u _ _ _ hu hr _ hw =>
    hr.trans (.revive hu.sound hw (u.eligible _))

end Mediation.Collection
