import Mediation.Proofs.Collection.Debt

/-! # Moves let no debt grow

Every move keeps a collection tame, and lets its nodes owe no more than before. A node
that is lost after it was to be expanded owes less.
-/

namespace Mediation.Collection

variable {T : Tariff} {rules : Rules} {ev : Evidence} {s t : Collection} {i x w : ℕ} {k : Key}

/-- A change after which a collection is tame and owes no more. -/
structure Settles (T : Tariff) (ev : Evidence) (s t : Collection) : Prop where
  tame : t.Tame T ev
  debt : t.debt T ≤ s.debt T

theorem Fades.settles (h : Fades {i} s t) (hs : s.Tame T ev)
    (hn : s.InPlay i → t.InPlay i →
      (t.node i).IsTame T ev ∧ (t.node i).due T ≤ (s.node i).due T) : Settles T ev s t where
  tame := h.tame hs fun j hj hp => by
    obtain rfl := Finset.mem_singleton.mp hj
    exact (hn (h.inPlay j hp) hp).1
  debt := h.debt_le fun j hj => by
    obtain rfl := Finset.mem_singleton.mp hj
    exact Collection.owes_le (h.inPlay j) fun hp => (hn (h.inPlay j hp) hp).2

theorem Agrees.settles (h : s.Agrees t) (hs : s.Tame T ev) : Settles T ev s t :=
  (Fades.of_agrees (E := {0}) h).settles hs fun hp _ =>
    ⟨.of_core (h.core 0) (hs.node 0 hp), (Node.due_of_core (h.core 0)).le⟩

section Change

variable (hs : s.Sound) (ht : s.Tame T ev)
include hs ht

theorem not_soft_of_isNarrowing {c : Constraint} (hn : s.IsNarrowing x i c) : ¬ T.soft := by
  intro hp
  have hx := (ht.node x (hs.inPlay_of_pending hn.pending)).plain hp
  have hi := (ht.node i (hs.inPlay_of_rival hn.rival)).plain hp
  have hh := hn.hard
  rw [hi.constraint, hi.soft, hx.soft] at hh
  cases hh

theorem knows_of_isNarrowing {c : Constraint} (hn : s.IsNarrowing x i c) : T.Knows c :=
  Tariff.knows_intersect (ht.node i (hs.inPlay_of_rival hn.rival)).knows
    (ht.node x (hs.inPlay_of_pending hn.pending)).declared hn.meeting

theorem isTame_of_isNarrowing {c : Constraint} {m n : Node} (hn : s.IsNarrowing x i c)
    (h : n.IsTame T ev) (hm : m.site = n.site) (hc : m.constraint = c)
    (hv : ∀ v, m.version = some v → v ∈ T.known)
    (hb : m.state = .included ∨ m.state = .omittedForConflict → m.IsBacked ev) :
    m.IsTame T ev where
  fits := hm ▸ h.fits
  knows := hc ▸ knows_of_isNarrowing hs ht hn
  declared := Node.declaredConstraint_of_site hm ▸ h.declared
  version := hv
  plain hsoft := absurd hsoft (not_soft_of_isNarrowing hs ht hn)
  backed := hb

omit hs ht in
theorem not_decided_of_pending (hp : (s.node x).state = .pending) :
    ¬((s.node x).state = .included ∨ (s.node x).state = .omittedForConflict) := by
  rw [hp]
  decide

theorem settles_choose {v : Version} (hg : T.Governs rules ev) (hp : (s.node x).state = .pending)
    (hv : ev.offers (s.node x).artifact.coordinate (s.node x).constraint v) :
    Settles T ev s (s.select x v) := by
  have hx : x < s.graph.size := hs.lt_size_of_contender (Steady.pending_contender hs hp)
  have hn : (s.select x v).node x =
      { s.node x with artifact := (s.node x).artifact.select v } := node_update_self hx
  refine (Fades.select (Finset.mem_singleton_self x) v).settles ht fun hxp _ => ?_
  have h := ht.node x hxp
  rw [hn]
  have ho := hg.offers hv h.knows
  refine ⟨?_, Node.due_le rfl (Node.share_le_of_pending hp _)⟩
  exact {
    fits := h.fits
    knows := h.knows
    declared := h.declared
    version w hw := by
      obtain rfl := Option.some.inj hw
      exact ho.1
    plain hsoft := by
      have hpl := h.plain hsoft
      refine ⟨hpl.soft, hpl.constraint, fun w hw => ?_⟩
      obtain rfl := Option.some.inj hw
      obtain ⟨r, hr⟩ := Option.isSome_iff_exists.mp (Bool.and_eq_true_iff.mp hpl.soft).1
      rw [ho.2.1 r (hpl.constraint ▸ hr)]
      exact hr
    backed := fun hst => absurd hst (not_decided_of_pending hp) }

theorem settles_tighten {c : Constraint} (hn : s.IsNarrowing x i c) :
    Settles T ev s (s.constrain x c) := by
  have hp := hn.pending
  have hx : x < s.graph.size := hs.lt_size_of_contender (Steady.pending_contender hs hp)
  have hnode : (s.constrain x c).node x = { s.node x with constraint := c } :=
    node_update_self hx
  refine (Fades.constrain (Finset.mem_singleton_self x) c).settles ht fun hxp _ => ?_
  have h := ht.node x hxp
  rw [hnode]
  refine ⟨isTame_of_isNarrowing hs ht hn h rfl rfl h.version fun hst => ?_,
    Node.due_le rfl (Node.share_le_of_pending hp _)⟩
  exact absurd hst (not_decided_of_pending hp)

theorem settles_accept (hp : (s.node x).state = .pending) (hb : (s.node x).IsBacked ev) :
    Settles T ev s (s.accept x) := by
  have hx := Steady.pending_contender hs hp
  have hn := (hs.accept_node hx x).trans (if_pos rfl)
  refine (Fades.accept hs hx (Finset.mem_singleton_self x) (hs.idle x hp)).settles ht
    fun hxp _ => ?_
  have h := ht.node x hxp
  rw [hn]
  exact ⟨h.of_view rfl rfl rfl fun _ => hb,
    Node.due_le rfl (Node.share_le_of_pending hp _)⟩

theorem settles_yieldTo (hp : (s.node x).state = .pending) (hb : (s.node x).IsBacked ev)
    (w : NodeId) : Settles T ev s (s.yieldTo w x) := by
  have hc := core_yieldTo hs hp w
  refine (Fades.yieldTo hs hp (Finset.mem_singleton_self x) w).settles ht fun hxp _ => ?_
  have h := ht.node x hxp
  refine ⟨.of_core hc (h.of_view rfl rfl rfl fun _ => hb), ?_⟩
  rw [Node.due_of_core hc]
  exact Node.due_le rfl (Node.share_le_of_pending hp _)

theorem settles_collapse (hi : i ∈ s.contenders)
    (hl : (s.node i).state = .pending ∨ (s.node i).state = .included) (e : NodeError) :
    Settles T ev s (s.collapse i e).1 := by
  have hst := state_collapse hs hi hl e
  have hc := core_collapse hs hi hl e
  refine (Fades.collapse hs hi (Finset.mem_singleton_self i) hl e).settles ht fun hip _ => ?_
  have h := ht.node i hip
  refine ⟨.of_core hc (h.of_view rfl rfl rfl nofun), ?_⟩
  rw [Node.due_of_failed hst]
  exact Nat.zero_le _

theorem settles_retain {c : Constraint} (hn : s.IsNarrowing x i c)
    (hk : Run.keepsVersion (s.node i).artifact c = true) :
    Settles T ev s (s.constrain i c) := by
  have hi : i < s.graph.size := hs.lt_size_of_contender hn.rival.mem
  have hst := isIncluded_iff.mp hn.rival.included
  have hnode : (s.constrain i c).node i = { s.node i with constraint := c } :=
    node_update_self hi
  refine (Fades.constrain (Finset.mem_singleton_self i) c).settles ht fun hip _ => ?_
  have h := ht.node i hip
  rw [hnode]
  refine ⟨isTame_of_isNarrowing hs ht hn h rfl rfl h.version fun _ => .inl hk,
    Node.due_le rfl ?_⟩
  have hle := Constraint.latitude_le_of_intersect hn.meeting fun r hr => (h.knows r hr).1
  simp only [Node.share, hst]
  exact Nat.add_le_add_right hle _

/-- A winner that has to move to another version has less left open from then on. -/
theorem settles_shift {c : Constraint} {v : Version} (hg : T.Governs rules ev)
    (hn : s.IsNarrowing x i c) (hk : Run.keepsVersion (s.node i).artifact c = false)
    (hv : ev.offers (s.node i).artifact.coordinate c v) :
    Settles T ev s ((s.constrain i c).rebase i v).1 := by
  have hst := isIncluded_iff.mp hn.rival.included
  have hc := hn.core_shift hs v
  refine (hn.fades_shift hs v).settles ht fun hip _ => ?_
  have h := ht.node i hip
  refine ⟨.of_core hc (isTame_of_isNarrowing hs ht hn h rfl rfl (fun w hw => ?_)
    fun _ => .inr ⟨v, rfl, hv⟩), ?_⟩
  · obtain rfl := Option.some.inj hw
    exact (hg.offers hv (knows_of_isNarrowing hs ht hn)).1
  · rw [Node.due_of_core hc]
    refine Node.due_le rfl ?_
    have hlt := Node.latitude_lt hg h (h.backed (.inl hst)) hn.meeting hk
    simp only [Node.share, hst, Bool.false_eq_true, if_false]
    omega

theorem settles_abandon {c : Constraint} (hn : s.IsNarrowing x i c) (e : NodeError) :
    Settles T ev s ((s.constrain i c).collapse i e).1 := by
  have hc := hn.core_abandon hs e
  refine (hn.fades_abandon hs e).settles ht fun hip _ => ?_
  have h := ht.node i hip
  refine ⟨.of_core hc (isTame_of_isNarrowing hs ht hn h rfl rfl h.version nofun), ?_⟩
  rw [Node.due_of_failed (hn.state_abandon hs e)]
  exact Nat.zero_le _

/-- A contender that takes the place of a lost winner owes what it owed as a loser. -/
theorem settles_revive (hw : w ∈ s.eligible k) (cs : List NodeId) :
    Settles T ev s (s.revive w cs) := by
  obtain ⟨-, -, hst, -⟩ := mem_eligible.mp hw
  have hcore := core_revive hs hw cs
  refine (Fades.revive hs hw (Finset.mem_singleton_self w) cs).settles ht fun hwp _ => ?_
  have h := ht.node w hwp
  refine ⟨.of_core hcore (h.of_view rfl rfl rfl fun _ => h.backed (.inr hst)), ?_⟩
  rw [Node.due_of_core hcore]
  refine Node.due_le rfl ?_
  simp only [Node.share, hst, Bool.false_eq_true, if_false]
  exact le_rfl

theorem settles_displace (hf : T.rank (s.node i).site ≤ T.rank (s.node x).site)
    (hp : (s.node x).state = .pending) (hb : (s.node x).IsBacked ev)
    (hw : s.winner? (s.node x).key = some i) :
    Settles T ev s (s.displace (s.node x).key i x).1 := by
  have hx := Steady.pending_contender hs hp
  obtain ⟨hi, -, hii⟩ := of_winner?_eq_some hw
  have hne : i ≠ x := by
    rintro rfl
    rw [hp] at hii
    cases hii
  have hip := hs.inPlay (hs.ne_root_of_contender hi) (.inr hii)
  have hxp := hs.inPlay_of_pending hp
  have h₁ := ht.node i hip
  have h₂ := ht.node x hxp
  obtain ⟨hci, st, hst, hcx⟩ := core_displace hs hp hw
  have hfade : Fades {i, x} s (s.displace (s.node x).key i x).1 :=
    Fades.displace hs hp hw (by simp) (by simp)
  refine ⟨hfade.tame ht fun j hj _ => ?_, hfade.debt_le_of_sum (fun j hj => ?_) ?_⟩
  · rcases Finset.mem_insert.mp hj with rfl | hj
    · exact .of_core hci (h₁.of_view rfl rfl rfl fun _ => h₁.backed (.inl hii))
    · obtain rfl := Finset.mem_singleton.mp hj
      exact .of_core hcx (h₂.of_view rfl rfl rfl fun _ => hb)
  · rw [Finset.mem_range]
    rcases Finset.mem_insert.mp hj with rfl | hj
    · exact hs.lt_size_of_contender hi
    · obtain rfl := Finset.mem_singleton.mp hj
      exact hs.lt_size_of_contender hx
  · rw [Finset.sum_pair hne, Finset.sum_pair hne, owes_of_inPlay hip, owes_of_inPlay hxp]
    have hdi := owes_le_due (T := T) (s.displace (s.node x).key i x).1 i
    have hdx := owes_le_due (T := T) (s.displace (s.node x).key i x).1 x
    rw [Node.due_of_core hci] at hdi
    rw [Node.due_of_core hcx] at hdx
    -- the newcomer has paid for the one expansion more that the loser owes
    have hpay : T.price (T.rank (s.node i).site) ≤ T.price (T.rank (s.node x).site) :=
      T.price_mono hf
    have hsi : (s.node i).constraint.latitude T.known ≤ (s.node i).share T := by
      rw [Node.share, hii]
      exact Nat.le_add_right _ _
    have hsx : ({ s.node x with state := st } : Node).share T + 1 ≤ (s.node x).share T := by
      have hl := Node.latitude_le_ceiling T (s.node x)
      have hxe := hs.idle x hp
      rcases hst with rfl | rfl <;> simp only [Node.share, hp, hxe] <;> simp <;> omega
    calc _ ≤ T.price (T.rank (s.node i).site) * ((s.node i).constraint.latitude T.known + 1) +
            T.price (T.rank (s.node x).site) *
              ({ s.node x with state := st } : Node).share T := Nat.add_le_add hdi hdx
      _ ≤ T.price (T.rank (s.node i).site) * (s.node i).share T +
            T.price (T.rank (s.node x).site) *
              (({ s.node x with state := st } : Node).share T + 1) := by
          have := Nat.mul_le_mul_left (T.price (T.rank (s.node i).site)) hsi
          rw [Nat.mul_succ, Nat.mul_succ]
          omega
      _ ≤ (s.node i).due T + (s.node x).due T :=
          Nat.add_le_add_left (Nat.mul_le_mul_left _ hsx) _

end Change

theorem Move.settles {a b : Situation} (m : Move rules ev x a b) (h : Steady a)
    (ht : a.1.Tame T ev) (hg : T.Governs rules ev) (hf : a.1.Favours T rules) :
    Settles T ev a.1 b.1 := by
  have hs := h.sound
  cases m with
  | tell e => exact (Agrees.emit _ e).settles ht
  | choose hp hv => exact settles_choose hs ht hg hp hv
  | tighten hn _ => exact settles_tighten hs ht hn
  | retain hn _ hk => exact settles_retain hs ht hn hk
  | shift hn _ hk hv => exact settles_shift hs ht hg hn hk hv
  | abandon e hn _ _ => exact settles_abandon hs ht hn e
  | reject e hp _ => exact settles_collapse hs ht (Steady.pending_contender hs hp) (.inl hp) e
  | seat hp hb _ _ => exact settles_accept hs ht hp hb
  | yield hp hb _ _ _ => exact settles_yieldTo hs ht hp hb _
  | displace hp hb hw hlt he =>
    obtain ⟨hi, hk, hii⟩ := of_winner?_eq_some hw
    exact settles_displace hs ht
      (hf _ _ ⟨hi, isIncluded_iff.mpr hii, hk⟩ hlt hp (isSome_of_isBacked hb) he) hp hb hw
  | lose e hr hi _ _ =>
    have hi := isIncluded_iff.mp hi
    exact settles_collapse hs ht (hs.live x hr (.inr hi)).1 (.inr hi) e
  | revive _ he => exact settles_revive hs ht (mem_of_elect he) _
  | skip _ => exact (Agrees.refl _).settles ht

/-- A node that fails when its descriptor is read owed at least that one expansion. -/
theorem debt_collapse_lt (hs : s.Sound) (hr : x ≠ Graph.root) (hi : (s.node x).state = .included)
    (hx : (s.node x).expanded = false) (e : NodeError) :
    (s.collapse x e).1.debt T < s.debt T := by
  have hc := (hs.live x hr (.inr hi)).1
  have hzero : (s.collapse x e).1.owes T x = 0 := by
    refine Nat.le_zero.mp ((owes_le_due _ x).trans ?_)
    rw [Node.due_of_failed (state_collapse hs hc (.inr hi) e)]
  have hpos : 0 < s.owes T x := by
    rw [owes_of_inPlay (hs.inPlay hr (.inr hi)), Node.due, Node.share, hi, hx]
    exact Nat.mul_pos (T.price_pos _) (Nat.succ_pos _)
  have hf : Fades {x} s (s.collapse x e).1 :=
    Fades.collapse hs hc (Finset.mem_singleton_self x) (.inr hi) e
  refine hf.debt_lt (fun j hj => ?_) (hs.lt_size_of_contender hc) (hzero ▸ hpos)
  obtain rfl := Finset.mem_singleton.mp hj
  exact hzero ▸ Nat.zero_le _

end Mediation.Collection
