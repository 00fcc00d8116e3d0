import Mediation.Proofs.Collection.Balance

/-! # What a move makes of a node and of a pair of nodes

A node in play keeps its version and its constraint, but for the node at hand and the winner that
it is narrowed with. A winner faces a loser if it did so before, or if one of the two has just
been elected.
-/

namespace Mediation

def Node.stock (n : Node) : Node :=
  { n.core with state := .pending, children := [], expanded := false }

theorem Node.stock_of_core {m n : Node} (h : m.core = n.core) : m.stock = n.stock := by
  unfold stock
  rw [h]

namespace Collection

variable {rules : Rules} {ev : Evidence} {s t : Collection} {E : Finset ℕ} {i j x w m : ℕ}

/-- What a node in play may become while the node `x` is at hand. -/
inductive Becomes (ev : Evidence) (x : ℕ) (s : Collection) (j : ℕ) (n : Node) : Prop
  | rest (h : n.stock = (s.node j).stock)
      (hf : (s.node j).state = .failed → n.state = .failed)
  | choose {v : Version} (hj : j = x) (hp : (s.node x).state = .pending)
      (hv : ev.offers (s.node x).artifact.coordinate (s.node x).constraint v)
      (h : n = { s.node x with artifact := (s.node x).artifact.select v })
  | tighten {i : ℕ} {c : Constraint} (hj : j = x) (hn : s.IsNarrowing x i c)
      (hd : (s.node x).constraint = (s.node x).declaredConstraint)
      (h : n = { s.node x with constraint := c })
  | retain {c : Constraint} (hn : s.IsNarrowing x j c)
      (hk : Run.keepsVersion (s.node j).artifact c = true)
      (h : n = { s.node j with constraint := c })
  | shift {c : Constraint} {v : Version} (hn : s.IsNarrowing x j c)
      (hv : ev.offers (s.node j).artifact.coordinate c v)
      (h : n.core = ({ s.node j with
        constraint := c
        artifact := (s.node j).artifact.select v
        children := []
        expanded := false }).core)
  | fail (h : n.state = .failed)

theorem Fades.becomes (h : Fades E s t) (hp : t.InPlay j)
    (hE : j ∈ E → Becomes ev x s j (t.node j)) : Becomes ev x s j (t.node j) := by
  by_cases hj : j ∈ E
  · exact hE hj
  · exact .rest (Node.stock_of_core (h.core j hj hp)) fun hf => (h.state hj hp).trans hf

theorem Fades.becomes_of_self (h : Fades {i} s t) (hp : t.InPlay j)
    (hi : Becomes ev x s i (t.node i)) : Becomes ev x s j (t.node j) :=
  h.becomes hp fun hj => Finset.mem_singleton.mp hj ▸ hi

theorem Move.becomes {a b : Situation} (m : Move rules ev x a b) (h : Steady a)
    (hj : b.1.InPlay j) : Becomes ev x a.1 j (b.1.node j) := by
  have hs := h.sound
  have hrest {s : Collection} {j : ℕ} {n : Node} {st : NodeState}
      (hc : n.core = ({ s.node j with state := st }).core) (hn : (s.node j).state ≠ .failed) :
      Becomes ev x s j n := by
    refine .rest ?_ fun hf => absurd hf hn
    rw [Node.stock_of_core hc]
    rfl
  cases m with
  | tell e => exact .rest rfl id
  | choose hp hv =>
    have hlt := hs.lt_size_of_contender (Steady.pending_contender hs hp)
    exact (Fades.select (Finset.mem_singleton_self x) _).becomes_of_self hj
      (.choose rfl hp hv (node_update_self hlt))
  | tighten hn _ hd =>
    have hlt := hs.lt_size_of_contender (Steady.pending_contender hs hn.pending)
    exact (Fades.constrain (Finset.mem_singleton_self x) _).becomes_of_self hj
      (.tighten rfl hn hd (node_update_self hlt))
  | @retain s i c hn _ hk =>
    exact (Fades.constrain (Finset.mem_singleton_self i) c).becomes_of_self hj
      (.retain hn hk (hn.node_constrain hs))
  | @shift s i c v hn _ _ hv =>
    exact (hn.fades_shift hs v).becomes_of_self hj (.shift hn hv (hn.core_shift hs v))
  | @abandon s i c e hn =>
    exact (hn.fades_abandon hs e).becomes_of_self hj (.fail (hn.state_abandon hs e))
  | reject e hp =>
    have hx := Steady.pending_contender hs hp
    exact (Fades.collapse hs hx (Finset.mem_singleton_self x) (.inl hp) e).becomes_of_self hj
      (.fail (state_collapse hs hx (.inl hp) e))
  | seat hp =>
    have hx := Steady.pending_contender hs hp
    refine (Fades.accept hs hx (Finset.mem_singleton_self x) (hs.idle x hp)).becomes_of_self hj
      (.rest ?_ fun hf => absurd (hp.symm.trans hf) (by decide))
    rw [hs.accept_node hx, if_pos rfl]
    rfl
  | @yield s i w hp =>
    exact (Fades.yieldTo hs hp (Finset.mem_singleton_self x) w).becomes_of_self hj
      (hrest (core_yieldTo hs hp w) (by rw [hp]; decide))
  | @displace s i hp _ hw =>
    obtain ⟨hi, st, -, hx⟩ := core_displace hs hp hw
    obtain ⟨-, -, hii⟩ := of_winner?_eq_some hw
    refine (Fades.displace hs hp hw (E := {i, x}) (by simp) (by simp)).becomes hj fun hm => ?_
    rcases Finset.mem_insert.mp hm with rfl | hm
    · exact hrest hi (by rw [hii]; decide)
    · obtain rfl := Finset.mem_singleton.mp hm
      exact hrest hx (by rw [hp]; decide)
  | lose e hr hi =>
    have hi := isIncluded_iff.mp hi
    have hx := (hs.live x hr (.inr hi)).1
    exact (Fades.collapse hs hx (Finset.mem_singleton_self x) (.inr hi) e).becomes_of_self hj
      (.fail (state_collapse hs hx (.inr hi) e))
  | @revive s k ks w hv he =>
    have hw := mem_of_elect he
    obtain ⟨-, -, hst, -⟩ := mem_eligible.mp hw
    refine (Fades.revive hs hw (Finset.mem_singleton_self w) _).becomes_of_self hj
      (.rest ?_ fun hf => absurd (hst.symm.trans hf) (by decide))
    rw [Node.stock_of_core (core_revive hs hw _)]
    rfl
  | skip => exact .rest rfl id

/-- How a winner and a loser may come to face each other while the node `x` is at hand. -/
inductive Faces (rules : Rules) (x : ℕ) (s : Collection) (w m : ℕ) : Prop
  | still (hw : (s.node w).state = .included) (hm : (s.node m).state = .omittedForConflict)
  | yields (hm : m = x) (hp : (s.node x).state = .pending)
      (hw : s.winner? (s.node x).key = some w)
      (he : s.elect rules (s.node x).key [min w x, max w x] = .ok w) (hmet : s.HasMet x)
  | displaces (hw : w = x) (hp : (s.node x).state = .pending)
      (hm : s.winner? (s.node x).key = some m) (hlt : m < x)
      (he : s.elect rules (s.node x).key [min m x, max m x] = .ok x) (hmet : s.HasMet x)
  | inherits {i : ℕ} (hw : w = x) (hp : (s.node x).state = .pending)
      (hi : s.winner? (s.node x).key = some i) (hlt : i < x)
      (he : s.elect rules (s.node x).key [min i x, max i x] = .ok x) (hmet : s.HasMet x)
      (hm : (s.node m).state = .omittedForConflict)
  | revives {k : Key} (hv : s.winner? k = none) (he : s.elect rules k (s.eligible k) = .ok w)
      (hm : m ∈ s.eligible k)

/-- A pair whose nodes are not concerned by a change has faced each other before. -/
theorem Fades.faces (h : Fades E s t) (hw : t.InPlay w) (hm : t.InPlay m)
    (hwi : (t.node w).state = .included) (hmo : (t.node m).state = .omittedForConflict)
    (hwE : w ∈ E → Faces rules x s w m) (hmE : m ∈ E → Faces rules x s w m) :
    Faces rules x s w m := by
  by_cases hw' : w ∈ E
  · exact hwE hw'
  by_cases hm' : m ∈ E
  · exact hmE hm'
  exact .still ((h.state hw' hw).symm.trans hwi) ((h.state hm' hm).symm.trans hmo)

theorem Fades.faces_of_state (h : Fades {i} s t) (hw : t.InPlay w) (hm : t.InPlay m)
    (hwi : (t.node w).state = .included) (hmo : (t.node m).state = .omittedForConflict)
    (hi : (t.node i).state = .pending ∨ (t.node i).state = .failed) : Faces rules x s w m := by
  have hne {j : ℕ} (hj : j ∈ ({i} : Finset ℕ)) {st : NodeState} (hst : (t.node j).state = st)
      (hp : st ≠ .pending) (hf : st ≠ .failed) : Faces rules x s w m := by
    obtain rfl := Finset.mem_singleton.mp hj
    rw [hst] at hi
    exact absurd hi (not_or.mpr ⟨hp, hf⟩)
  exact h.faces hw hm hwi hmo (fun hE => hne hE hwi (by decide) (by decide))
    fun hE => hne hE hmo (by decide) (by decide)

theorem SameShape.faces (h : s.SameShape t) (hwi : (t.node w).state = .included)
    (hmo : (t.node m).state = .omittedForConflict) : Faces rules x s w m :=
  .still ((h.state w).symm.trans hwi) ((h.state m).symm.trans hmo)

theorem faces_of_seat (h : Steady (s, [])) (hp : (s.node x).state = .pending)
    (hn : s.winner? (s.node x).key = none) (hw : (s.accept x).InPlay w)
    (hm : (s.accept x).InPlay m) (hwi : ((s.accept x).node w).state = .included)
    (hmo : ((s.accept x).node m).state = .omittedForConflict)
    (hk : (s.node w).key = (s.node m).key) : Faces rules x s w m := by
  have hs := h.sound
  have hx := Steady.pending_contender hs hp
  have hf : Fades {x} s (s.accept x) :=
    .accept hs hx (Finset.mem_singleton_self x) (hs.idle x hp)
  have hmx : m ∉ ({x} : Finset ℕ) := by
    rw [Finset.mem_singleton]
    rintro rfl
    rw [hs.accept_node hx, if_pos rfl] at hmo
    cases hmo
  refine hf.faces hw hm hwi hmo (fun hwx => ?_) fun hE => absurd hE hmx
  -- the loser has had a winner, so the newcomer is not the first of its identity
  obtain rfl := Finset.mem_singleton.mp hwx
  obtain ⟨hc, p, hpar, hpi⟩ := hf.inPlay m hm
  obtain ⟨v, hr, hv, hvk⟩ :=
    (h.seated m p hc hpar hpi ((hf.state hmx hm).symm.trans hmo)).resolve_left nofun
  exact absurd (hvk.trans hk.symm) (hs.winner?_eq_none_iff.mp hn v hr hv)

theorem faces_of_yield (hs : s.Sound) (hp : (s.node x).state = .pending)
    (hi : s.winner? (s.node x).key = some i)
    (he : s.elect rules (s.node x).key [min i x, max i x] = .ok j) (hne : j ≠ x)
    (hmet : s.HasMet x) (hw : (s.yieldTo j x).InPlay w) (hm : (s.yieldTo j x).InPlay m)
    (hwi : ((s.yieldTo j x).node w).state = .included)
    (hmo : ((s.yieldTo j x).node m).state = .omittedForConflict)
    (hk : (s.node w).key = (s.node m).key) : Faces rules x s w m := by
  have hf : Fades {x} s (s.yieldTo j x) := .yieldTo hs hp (Finset.mem_singleton_self x) j
  have hst : ((s.yieldTo j x).node x).state = .omittedForConflict :=
    Node.state_of_core (core_yieldTo hs hp j)
  have hwx : w ∉ ({x} : Finset ℕ) := by
    rw [Finset.mem_singleton]
    rintro rfl
    rw [hst] at hwi
    cases hwi
  refine hf.faces hw hm hwi hmo (fun hE => absurd hE hwx) fun hmx => ?_
  obtain rfl := Finset.mem_singleton.mp hmx
  obtain ⟨hic, hik, hii⟩ := of_winner?_eq_some hi
  obtain rfl : w = i := hs.unique w i (hs.ne_root_of_contender (hf.inPlay w hw).1)
    (hs.ne_root_of_contender hic) ((hf.state hwx hw).symm.trans hwi) hii (hk.trans hik.symm)
  obtain rfl := eq_of_elect he hne
  exact .yields rfl hp hi he hmet

theorem faces_of_displace (hs : s.Sound) (hp : (s.node x).state = .pending)
    (hi : s.winner? (s.node x).key = some i) (hlt : i < x)
    (he : s.elect rules (s.node x).key [min i x, max i x] = .ok x) (hmet : s.HasMet x)
    (hw : (s.displace (s.node x).key i x).1.InPlay w)
    (hm : (s.displace (s.node x).key i x).1.InPlay m)
    (hwi : ((s.displace (s.node x).key i x).1.node w).state = .included)
    (hmo : ((s.displace (s.node x).key i x).1.node m).state = .omittedForConflict)
    (hk : (s.node w).key = (s.node m).key) : Faces rules x s w m := by
  have hf : Fades {i, x} s (s.displace (s.node x).key i x).1 :=
    .displace hs hp hi (by simp) (by simp)
  obtain ⟨hic, hik, hii⟩ := of_winner?_eq_some hi
  obtain ⟨hci, -⟩ := core_displace hs hp hi
  have hst : ((s.displace (s.node x).key i x).1.node i).state = .omittedForConflict :=
    Node.state_of_core hci
  have hwne : w ≠ i := by
    rintro rfl
    rw [hst] at hwi
    cases hwi
  -- the winner is the newcomer, or stands for another identity than the two
  have hwin (hkx : (s.node w).key = (s.node x).key) : w = x := by
    by_contra hwx
    have hwE : w ∉ ({i, x} : Finset ℕ) := by simp [hwne, hwx]
    exact hwne (hs.unique w i (hs.ne_root_of_contender (hf.inPlay w hw).1)
      (hs.ne_root_of_contender hic) ((hf.state hwE hw).symm.trans hwi) hii (hkx.trans hik.symm))
  have hne : m ≠ w := by
    rintro rfl
    rw [hmo] at hwi
    cases hwi
  refine hf.faces hw hm hwi hmo (fun hwE => ?_) fun hmE => ?_
  · obtain rfl : w = x := by simpa [hwne] using hwE
    by_cases hmi : m = i
    · subst hmi
      exact .displaces rfl hp hi hlt he hmet
    · have hmE : m ∉ ({i, w} : Finset ℕ) := by simp [hmi, hne]
      exact .inherits rfl hp hi hlt he hmet ((hf.state hmE hm).symm.trans hmo)
  · rcases Finset.mem_insert.mp hmE with rfl | hmx
    · obtain rfl := hwin (hk.trans hik)
      exact .displaces rfl hp hi hlt he hmet
    · obtain rfl := Finset.mem_singleton.mp hmx
      exact absurd (hwin hk) hne.symm

theorem faces_of_revive (hs : s.Sound) {k : Key} (hv : s.isVacant k = true)
    (he : s.elect rules k (s.eligible k) = .ok j) {cs : List NodeId}
    (hw : (s.revive j cs).InPlay w) (hm : (s.revive j cs).InPlay m)
    (hwi : ((s.revive j cs).node w).state = .included)
    (hmo : ((s.revive j cs).node m).state = .omittedForConflict)
    (hk : (s.node w).key = (s.node m).key) : Faces rules x s w m := by
  have hj := mem_of_elect he
  have hf : Fades {j} s (s.revive j cs) := .revive hs hj (Finset.mem_singleton_self j) cs
  have hst : ((s.revive j cs).node j).state = .included :=
    Node.state_of_core (core_revive hs hj cs)
  have hmj : m ∉ ({j} : Finset ℕ) := by
    rw [Finset.mem_singleton]
    rintro rfl
    rw [hst] at hmo
    cases hmo
  refine hf.faces hw hm hwi hmo (fun hwj => ?_) fun hE => absurd hE hmj
  obtain rfl := Finset.mem_singleton.mp hwj
  have hms := (hf.state hmj hm).symm.trans hmo
  obtain ⟨hc, p, hpar, hpi⟩ := hf.inPlay m hm
  obtain ⟨q, hq, hmq⟩ := hs.contender m hc
  obtain rfl : q = p := Option.some.inj (hq.symm.trans hpar)
  have hkw : (s.node w).key = k := (mem_eligible.mp hj).2.1
  refine .revives (isVacant_iff.mp hv).1 he (mem_eligible.mpr ⟨hc, hk ▸ hkw, hms, ?_, q, hpar, hpi⟩)
  exact hs.settled q m hpi hmq hms

theorem Move.faces {a b : Situation} (h : Move rules ev x a b) (hst : Steady a)
    (hw : b.1.InPlay w) (hm : b.1.InPlay m) (hwi : (b.1.node w).state = .included)
    (hmo : (b.1.node m).state = .omittedForConflict) (hk : (a.1.node w).key = (a.1.node m).key) :
    Faces rules x a.1 w m := by
  have hs := hst.sound
  cases h with
  | tell => exact .still hwi hmo
  | choose => exact (sameShape_select _ _ _).faces hwi hmo
  | tighten => exact (sameShape_constrain _ _ _).faces hwi hmo
  | retain => exact (sameShape_constrain _ _ _).faces hwi hmo
  | @shift s i c v hn =>
    have hii := isIncluded_iff.mp hn.rival.included
    have hst := (hn.state_shift hs v).trans hii
    have hf := hn.fades_shift hs v
    have hmi : m ∉ ({i} : Finset ℕ) := by
      rw [Finset.mem_singleton]
      rintro rfl
      rw [hst] at hmo
      cases hmo
    refine hf.faces hw hm hwi hmo (fun hE => ?_) fun hE => absurd hE hmi
    obtain rfl := Finset.mem_singleton.mp hE
    exact .still hii ((hf.state hmi hm).symm.trans hmo)
  | @abandon s i c e hn =>
    exact (hn.fades_abandon hs e).faces_of_state hw hm hwi hmo (.inr (hn.state_abandon hs e))
  | reject e hp =>
    have hx := Steady.pending_contender hs hp
    exact (Fades.collapse hs hx (Finset.mem_singleton_self x) (.inl hp) e).faces_of_state hw hm
      hwi hmo (.inr (state_collapse hs hx (.inl hp) e))
  | seat hp _ hn => exact faces_of_seat hst hp hn hw hm hwi hmo hk
  | yield hp _ hi he hne hmet => exact faces_of_yield hs hp hi he hne hmet hw hm hwi hmo hk
  | displace hp _ hi hlt he hmet => exact faces_of_displace hs hp hi hlt he hmet hw hm hwi hmo hk
  | lose e hr hi =>
    have hi := isIncluded_iff.mp hi
    have hx := (hs.live x hr (.inr hi)).1
    exact (Fades.collapse hs hx (Finset.mem_singleton_self x) (.inr hi) e).faces_of_state hw hm
      hwi hmo (.inr (state_collapse hs hx (.inr hi) e))
  | revive hv he => exact faces_of_revive hs hv he hw hm hwi hmo hk
  | skip => exact .still hwi hmo

end Collection

end Mediation
