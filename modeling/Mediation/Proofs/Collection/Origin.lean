import Mediation.Proofs.Collection.Fade
import Mediation.Proofs.Collection.Offspring

/-! # Where the nodes in play come from

A node in play was in play before each move, with the same site, or is a pending child of an
expansion. So what is demanded of all declarations holds of every node for ever.
-/

namespace Mediation.Collection

variable {rules : Rules} {ev : Evidence} {s t : Collection} {E : Finset ℕ} {i j x : ℕ}
  {P : Constraint → Prop} {d : Descriptor}

theorem Move.fades {a b : Situation} (m : Move rules ev x a b) (h : Steady a) :
    ∃ E, Fades E a.1 b.1 := by
  have hs := h.sound
  cases m with
  | tell e => exact ⟨∅, .of_agrees (.emit _ e)⟩
  | choose => exact ⟨{x}, .select (by simp) _⟩
  | tighten => exact ⟨{x}, .constrain (by simp) _⟩
  | @retain s i c => exact ⟨{i}, .constrain (by simp) c⟩
  | @shift s i c v hn => exact ⟨{i}, hn.fades_shift hs v⟩
  | @abandon s i c e hn => exact ⟨{i}, hn.fades_abandon hs e⟩
  | reject e hp =>
    exact ⟨{x}, .collapse hs (Steady.pending_contender hs hp) (by simp) (.inl hp) e⟩
  | seat hp =>
    exact ⟨{x}, .accept hs (Steady.pending_contender hs hp) (by simp) (hs.idle x hp)⟩
  | yield hp => exact ⟨{x}, .yieldTo hs hp (by simp) _⟩
  | @displace s i hp _ hw => exact ⟨{i, x}, .displace hs hp hw (by simp) (by simp)⟩
  | lose e hr hi =>
    have hi := isIncluded_iff.mp hi
    exact ⟨{x}, .collapse hs (hs.live x hr (.inr hi)).1 (by simp) (.inr hi) e⟩
  | @revive s k ks w hv he => exact ⟨{w}, .revive hs (mem_of_elect he) (by simp) _⟩
  | skip => exact ⟨∅, .refl _ _⟩

theorem contenders_detach_sublist : (s.detach i).contenders.Sublist s.contenders := by
  rw [contenders_detach]
  exact List.filter_sublist

theorem Agrees.contenders_sublist (h : s.Agrees t) : t.contenders.Sublist s.contenders :=
  h.contenders ▸ .refl _

theorem Move.contenders_sublist {a b : Situation} (m : Move rules ev x a b) (h : Steady a) :
    b.1.contenders.Sublist a.1.contenders := by
  have hs := h.sound
  have hcollapse {s : Collection} (hs : s.Sound) {i : ℕ} (e : NodeError)
      (hl : (s.node i).state = .pending ∨ (s.node i).state = .included) :
      (s.collapse i e).1.contenders.Sublist s.contenders := by
    have ha := agrees_collapse (Steady.children_of_fate hs hl) e
    exact ha.contenders_sublist.trans (by rw [contenders_topple])
  cases m with
  | tell => exact .refl _
  | choose => exact .refl _
  | tighten => exact .refl _
  | retain => exact .refl _
  | @shift s i c v hn =>
    have hsc := (sameShape_constrain s i c).sound hs
    have ha := agrees_rebase hsc.tree (hsc.lt_size_of_contender hn.rival.mem) (hsc.fresh i) v
    exact ha.contenders_sublist.trans contenders_detach_sublist
  | @abandon s i c e hn =>
    exact hcollapse ((sameShape_constrain s i c).sound hs) e (.inr hn.state_constrain)
  | reject e hp => exact hcollapse hs e (.inl hp)
  | seat => exact .refl _
  | @yield s i w hp =>
    have ha := agrees_yieldTo (w := w) (hs.fresh x (hs.idle x hp))
    exact ha.contenders_sublist.trans (by rw [contenders_topple])
  | @displace s i hp _ hw =>
    obtain ⟨hi, -, hii⟩ := of_winner?_eq_some hw
    have hne : x ≠ i := by
      rintro rfl
      rw [hp] at hii
      cases hii
    have hx := Steady.pending_contender hs hp
    have ha := agrees_displace hs.tree (hs.lt_size_of_contender hi) (hs.lt_size_of_contender hx)
      hne (hs.fresh i) (s.node x).key hp
    refine ha.contenders_sublist.trans ?_
    split
    · rw [contenders_topple]
    · rw [contenders_accept, contenders_topple]
  | lose e _ hi => exact hcollapse hs e (.inr (isIncluded_iff.mp hi))
  | @revive s k ks w hv he =>
    obtain ⟨hc, -, hst, -⟩ := mem_eligible.mp (mem_of_elect he)
    have hd := fun j => hs.not_live_below (i := w) (j := j) (by rw [hst]; decide)
    have ha := agrees_revive hs.tree (hs.lt_size_of_contender hc) (hs.fresh w) hd (s.eligible k)
    exact ha.contenders_sublist.trans contenders_detach_sublist
  | skip => exact .refl _

section Expand

variable (hx : x < s.graph.size) (d : Descriptor)
include hx

theorem contenders_expand :
    (s.expand rules x d).2.contenders = s.contenders ++ (s.expand rules x d).1 := by
  refine ((sprouts_expand rules s x d).preserve
    (P := fun g => x < g.2.2.graph.size ∧ g.2.2.contenders = s.contenders ++ g.2.1) ?_
    ⟨hx.trans_eq (size_opened d).symm, (List.append_nil _).symm⟩).2
  rintro _ _ (⟨e⟩ | _ | @⟨e, ds, ids, t, c, hc⟩) ⟨hlt, h⟩
  · exact ⟨hlt, h⟩
  · exact ⟨hlt, h⟩
  · refine ⟨by rw [size_adopt]; exact Nat.lt_succ_of_lt hlt, ?_⟩
    rcases adopt_cases hlt c with ⟨-, h₁, h₂⟩ | ⟨-, h₁, h₂⟩ <;> rw [h₁, h₂, h] <;> simp

theorem pending_of_created :
    ∀ j ∈ (s.expand rules x d).1, ((s.expand rules x d).2.node j).state = .pending := by
  refine fun j hj => ((sprouts_expand rules s x d).preserve
    (P := fun g => x < g.2.2.graph.size ∧ ∀ j ∈ g.2.1, j < g.2.2.graph.size ∧
      (g.2.2.node j).state = .pending) ?_
    ⟨hx.trans_eq (size_opened d).symm, nofun⟩).2 j hj |>.2
  rintro _ _ (⟨e⟩ | _ | @⟨e, ds, ids, t, c, hc⟩) ⟨hlt, h⟩
  · exact ⟨hlt, h⟩
  · exact ⟨hlt, h⟩
  · refine ⟨by rw [size_adopt]; exact Nat.lt_succ_of_lt hlt, fun j hj => ?_⟩
    rw [size_adopt]
    rcases List.mem_append.mp hj with hj | hj
    · obtain ⟨hjt, hjp⟩ := h j hj
      exact ⟨Nat.lt_succ_of_lt hjt, (view_adopt Node.state (fun _ _ => rfl) hlt c hjt.ne).trans hjp⟩
    · rcases adopt_cases hlt c with ⟨-, h₁, -⟩ | ⟨h₀, h₁, -⟩
      · simp [h₁] at hj
      · obtain rfl : j = t.graph.size := by simpa [h₁] using hj
        exact ⟨Nat.lt_succ_self _, by rw [node_adopt_size hlt, h₀]⟩

/-- What is in play after an expansion was so before, or is a pending child. -/
theorem of_inPlay_expand (hs : s.Sound) (hj : (s.expand rules x d).2.InPlay j) :
    j < s.graph.size ∧ s.InPlay j ∨
      s.graph.size ≤ j ∧ j < (s.expand rules x d).2.graph.size ∧
        ((s.expand rules x d).2.node j).state = .pending := by
  obtain ⟨hc, p, hp, hpi⟩ := hj
  rw [contenders_expand hx d] at hc
  rcases List.mem_append.mp hc with hc | hc
  · have hjs := hs.lt_size_of_contender hc
    refine .inl ⟨hjs, hc, p, ?_, (included_expand hx d hpi).2⟩
    rwa [view_expand hx d Node.parent (fun _ => rfl) (fun _ _ => rfl) hjs] at hp
  · obtain ⟨hge, hlt⟩ := (adds_expand rules hx d).created j hc
    exact .inr ⟨(size_opened d).symm.trans_le hge, hlt, pending_of_created hx d j hc⟩

/-- What is in play after an expansion, and is not pending, was so before in the same state. -/
theorem inPlay_of_expand {st : NodeState} (hs : s.Sound) (hj : (s.expand rules x d).2.InPlay j)
    (hst : ((s.expand rules x d).2.node j).state = st) (hn : st ≠ .pending) :
    j < s.graph.size ∧ s.InPlay j ∧ (s.node j).state = st := by
  rcases of_inPlay_expand hx d hs hj with ⟨hjs, hjp⟩ | ⟨-, -, hp⟩
  · exact ⟨hjs, hjp, (state_expand hx d hjs).symm.trans hst⟩
  · exact absurd (hst.symm.trans hp) hn

end Expand

/-- Whether what nodes were declared with, and what they pin, satisfies a condition. -/
structure Complies (P : Constraint → Prop) (s : Collection) : Prop where
  declared : ∀ j : ℕ, j ≠ Graph.root → j < s.graph.size → P (s.node j).declaredConstraint
  pins : ∀ (i : ℕ) (k : Key) (pin : Pin) (c : Constraint),
    (s.node i).management.get? k = some pin → pin.version = some c → P c

namespace Complies

theorem of_fades (h : s.Complies P) (hf : Fades E s t) : t.Complies P where
  declared j hr hj := by
    have hc : (t.node j).declaredConstraint = (s.node j).declaredConstraint :=
      congrArg Site.constraint (hf.site j)
    rw [hc]
    exact h.declared j hr (hf.size ▸ hj)
  pins i := by
    rw [hf.management]
    exact h.pins i

theorem adopt (h : s.Complies P) (hx : x < s.graph.size) {c : Child} (hc : P c.constraint) :
    (s.adopt x c).2.Complies P where
  declared j hr hj := by
    by_cases hjs : j = s.graph.size
    · rw [hjs, node_adopt_size hx]
      exact hc
    · rw [view_adopt Node.declaredConstraint (fun _ _ => rfl) hx c hjs]
      rw [size_adopt] at hj
      exact h.declared j hr (by omega)
  pins i k pin q hk := by
    by_cases his : i = s.graph.size
    · rw [his, node_adopt_size hx] at hk
      cases hk
    · rw [view_adopt Node.management (fun _ _ => rfl) hx c his] at hk
      exact h.pins i k pin q hk

theorem expand (h : s.Complies P) (hx : x < s.graph.size)
    (hr : ∀ k pin c, rules.pins.get? k = some pin → pin.version = some c → P c)
    (hd : ∀ e ∈ d.dependencies, P e.constraint)
    (hm : ∀ k pin c, d.management.get? k = some pin → pin.version = some c → P c) :
    (s.expand rules x d).2.Complies P := by
  refine ((sprouts_expand rules s x d).preserve
    (P := fun g => (∀ e ∈ g.1, e ∈ d.dependencies) ∧ x < g.2.2.graph.size ∧ g.2.2.Complies P)
    ?_ ⟨fun _ h => h, hx.trans_eq (size_opened d).symm, ?_, ?_⟩).2.2
  · rintro _ _ (⟨e⟩ | _ | @⟨e, ds, ids, t, c, hc⟩) ⟨hsub, hlt, ht⟩
    · exact ⟨hsub, hlt, ht.declared, ht.pins⟩
    · exact ⟨fun e he => hsub e (List.mem_cons_of_mem _ he), hlt, ht⟩
    · refine ⟨fun e he => hsub e (List.mem_cons_of_mem _ he), ?_, ht.adopt hlt ?_⟩
      · rw [size_adopt]
        exact Nat.lt_succ_of_lt hlt
      · rcases hc.constraint with hc | ⟨pin, hp | ⟨i, hp⟩, hv⟩
        · rw [hc]
          exact hd e (hsub e (List.mem_cons_self ..))
        · exact hr _ _ _ hp hv
        · exact ht.pins i _ pin _ hp hv
  · intro j hr hj
    rw [view_opened d Node.declaredConstraint fun _ => rfl]
    exact h.declared j hr (hj.trans_eq (size_opened d))
  · intro i k pin c hk
    by_cases hix : i = x
    · subst hix
      rw [node_opened_self d hx] at hk
      exact hm k pin c hk
    · rw [node_opened_of_ne d hix] at hk
      exact h.pins i k pin c hk

end Complies

end Mediation.Collection
