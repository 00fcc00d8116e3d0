import Mediation.Proofs.Collection.Debt

/-! # What an expansion costs

A node that is expanded pays for one expansion, and this covers what its children owe if
they are of a lower rank and no more than the terms allow. So an expansion lowers the debt.
-/

namespace Mediation

variable {T : Tariff} {rules : Rules} {ev : Evidence}

def Site.below (σ : Site) (i p : NodeId) (c : Child) : Site :=
  ⟨i, c.coordinate, σ.trail ++ [c.coordinate], c.optional, σ.depth + 1, some p, c.constraint,
    c.declaredScope, c.exclusions⟩

namespace Tariff

def Brings (T : Tariff) (d : Dependency) (c : Child) : Prop :=
  c.coordinate = d.coordinate ∧
    (c.constraint = d.constraint ∨ T.pinned d.coordinate.key c.constraint)

/-- Whether a descriptor read at a site keeps to the terms. -/
structure Allows (T : Tariff) (σ : Site) (d : Descriptor) : Prop where
  length : d.dependencies.length ≤ T.width
  pins : ∀ {k : Key} {pin : Pin} {c : Constraint}, d.management.get? k = some pin →
    pin.version = some c → T.pinned k c
  child : ∀ e ∈ d.dependencies, ∀ c, T.Brings e c → c.coordinate ∉ σ.trail → ∀ i p,
    T.Knows c.constraint ∧ (T.soft → c.constraint.isSoft = true) ∧
      T.fits (σ.below i p c) ∧ T.rank (σ.below i p c) < T.rank σ

end Tariff

namespace Collection

open Finset

variable {s t : Collection} {i j p x : ℕ} {c : Child} {d : Descriptor}

/-- What is in play after an adoption was so before, or is the new pending child. -/
theorem of_inPlay_adopt (hp : p < s.graph.size) (hlt : ∀ j ∈ s.contenders, j < s.graph.size)
    (hj : (s.adopt p c).2.InPlay j) :
    j ≠ s.graph.size ∧ s.InPlay j ∧ ((s.adopt p c).2.node j).trunk = (s.node j).trunk ∨
      j = s.graph.size ∧ (s.graph.childNode p c).state = .pending := by
  obtain ⟨hc, q, hq, hqi⟩ := hj
  have hqs : q ≠ s.graph.size := by
    rintro rfl
    rw [node_adopt_size hp] at hqi
    rcases adopt_cases hp c with ⟨hs, -⟩ | ⟨hs, -⟩ <;> rw [hs] at hqi <;> cases hqi
  have hqi : (s.node q).state = .included :=
    (view_adopt Node.state (fun _ _ => rfl) hp c hqs).symm.trans hqi
  by_cases hjs : j = s.graph.size
  · refine .inr ⟨hjs, ?_⟩
    rcases adopt_cases hp c with ⟨-, -, hs⟩ | ⟨hs, -⟩
    · rw [hs, hjs] at hc
      exact absurd (hlt _ hc) (lt_irrefl _)
    · exact hs
  · have hjc : j ∈ s.contenders := by
      rcases adopt_cases hp c with ⟨-, -, hs⟩ | ⟨-, -, hs⟩ <;> rw [hs] at hc
      · exact hc
      · exact (List.mem_append.mp hc).resolve_right fun hm => hjs (List.mem_singleton.mp hm)
    refine .inl ⟨hjs, ⟨hjc, q, ?_, hqi⟩, view_adopt Node.trunk (fun _ _ => rfl) hp c hjs⟩
    exact (view_adopt Node.parent (fun _ _ => rfl) hp c hjs).symm.trans hq

/-- An expansion under way, with what the dependencies left may still cost. -/
structure Outlay (T : Tariff) (ev : Evidence) (x D : ℕ) (σ : Site) (ds : List Dependency)
    (s : Collection) : Prop where
  lt_size : x < s.graph.size
  contenders : ∀ j ∈ s.contenders, j < s.graph.size
  site : (s.node x).site = σ
  state : (s.node x).state = .included
  tame : s.Tame T ev
  debt : s.debt T + ds.length * T.cost (T.rank σ) ≤ D

namespace Outlay

variable {D : ℕ} {σ : Site} {e : Dependency} {ds : List Dependency}

theorem emit (h : Outlay T ev x D σ ds s) (ev' : Event) : Outlay T ev x D σ ds (s.emit ev') :=
  ⟨h.lt_size, h.contenders, h.site, h.state, ⟨h.tame.node, h.tame.pins⟩, h.debt⟩

theorem leave (h : Outlay T ev x D σ (e :: ds) s) : Outlay T ev x D σ ds s := by
  refine ⟨h.lt_size, h.contenders, h.site, h.state, h.tame, le_trans ?_ h.debt⟩
  exact Nat.add_le_add_left (Nat.mul_le_mul_right _ (Nat.le_succ _)) _

theorem adopt (h : Outlay T ev x D σ (e :: ds) s) (hg : T.Governs rules ev) (ha : T.Allows σ d)
    (he : e ∈ d.dependencies) (hs : s.Stems rules e c) :
    Outlay T ev x D σ ds (s.adopt x c).2 := by
  have hb : T.Brings e c := by
    refine ⟨hs.coordinate, hs.constraint.imp_right ?_⟩
    rintro ⟨pin, hp | ⟨i, hp⟩, hv⟩
    · exact hg.pins hp hv
    · exact h.tame.pins i _ pin _ hp hv
  have hx := h.lt_size
  have hnew := node_adopt_size hx c
  -- a pending child extends the trail, so its rank is lower
  have hchild (hst : (s.graph.childNode x c).state = .pending) :
      (s.graph.childNode x c).IsTame T ev ∧
        (s.graph.childNode x c).due T ≤ T.cost (T.rank σ) := by
    have hmem : c.coordinate ∉ σ.trail := by
      intro hm
      rw [← h.site] at hm
      have hcyc : (s.graph.childNode x c).state = .omittedForCycle :=
        if_pos (List.contains_iff_mem.mpr hm)
      rw [hst] at hcyc
      cases hcyc
    obtain ⟨hk, hsoft, hf, hr⟩ := ha.child e he c hb hmem s.graph.size x
    have hsite : (s.graph.childNode x c).site = σ.below s.graph.size x c := by
      rw [← h.site]; rfl
    refine ⟨⟨hsite ▸ hf, hk, hk, nofun, fun hp => ⟨hsoft hp, rfl, nofun⟩, ?_⟩, ?_⟩
    · rw [hst]
      rintro (hf | hf) <;> cases hf
    · rw [Node.due, Node.share, hst, hsite]
      exact T.price_mul_le_cost hr
  have hold : ∑ j ∈ range s.graph.size, (s.adopt x c).2.owes T j ≤ s.debt T := by
    refine sum_le_sum fun j hj => ?_
    have hjs := (mem_range.mp hj).ne
    refine owes_le (fun hp => ?_) fun hp => ?_
    · exact ((of_inPlay_adopt hx h.contenders hp).resolve_right fun hn => hjs hn.1).2.1
    · exact (Node.due_of_trunk (view_adopt Node.trunk (fun _ _ => rfl) hx c hjs)).le
  have hone : (s.adopt x c).2.owes T s.graph.size ≤ T.cost (T.rank σ) := by
    unfold owes
    split
    · rename_i hp
      rw [hnew]
      exact (hchild ((of_inPlay_adopt hx h.contenders hp).resolve_left fun hn => hn.1 rfl).2).2
    · exact Nat.zero_le _
  exact {
    lt_size := by
      rw [size_adopt]
      exact Nat.lt_succ_of_lt hx
    contenders j hj := by
      rw [size_adopt]
      rcases of_mem_contenders_adopt hx c hj with hj | rfl
      · exact Nat.lt_succ_of_lt (h.contenders j hj)
      · exact Nat.lt_succ_self _
    site := (view_adopt Node.site (fun _ _ => rfl) hx c hx.ne).trans h.site
    state := (state_adopt hx c hx.ne).trans h.state
    tame := {
      node j hj := by
        rcases of_inPlay_adopt hx h.contenders hj with ⟨-, hj, ht⟩ | ⟨rfl, hst⟩
        · exact .of_trunk ht (h.tame.node j hj)
        · rw [hnew]
          exact (hchild hst).1
      pins i k pin q hk hv := by
        by_cases hi : i = s.graph.size
        · rw [hi, hnew] at hk
          cases hk
        · rw [view_adopt Node.management (fun _ _ => rfl) hx c hi] at hk
          exact h.tame.pins i k pin q hk hv }
    debt := by
      have hdebt := h.debt
      rw [List.length_cons, Nat.succ_mul] at hdebt
      rw [Collection.debt, size_adopt, sum_range_succ]
      omega }

end Outlay

theorem inPlay_opened : (s.opened x d).InPlay j ↔ s.InPlay j := by
  have hstate (q : ℕ) : ((s.opened x d).node q).state = (s.node q).state :=
    view_opened d Node.state fun _ => rfl
  unfold InPlay
  rw [view_opened d Node.parent fun _ => rfl]
  simp only [hstate]
  rfl

section Expand

variable (ht : s.Tame T ev) (hi : (s.node x).state = .included)
  (ha : T.Allows (s.node x).site d)
include ht hi ha

theorem tame_opened : (s.opened x d).Tame T ev := by
  have hx : x < s.graph.size := Graph.lt_size_of_isIncluded (isIncluded_iff.mpr hi)
  have hself := node_opened_self d hx
  exact {
    node j hj := by
      have h := ht.node j (inPlay_opened.mp hj)
      by_cases hjx : j = x
      · subst hjx
        rw [hself]
        exact h.of_view rfl rfl rfl h.backed
      · rwa [node_opened_of_ne d hjx]
    pins i k pin c hk hv := by
      by_cases hix : i = x
      · subst hix
        rw [hself] at hk
        exact ha.pins hk hv
      · rw [node_opened_of_ne d hix] at hk
        exact ht.pins i k pin c hk hv }

variable (hs : s.Sound) (hg : T.Governs rules ev)
include hs hg

theorem outlay_expand : Outlay T ev x
    ((s.opened x d).debt T + d.dependencies.length * T.cost (T.rank (s.node x).site))
    (s.node x).site [] (s.expand rules x d).2 := by
  have hx : x < s.graph.size := Graph.lt_size_of_isIncluded (isIncluded_iff.mpr hi)
  have hsize : (s.opened x d).graph.size = s.graph.size := size_opened d
  refine ((sprouts_expand rules s x d).preserve
    (P := fun g => (∀ e ∈ g.1, e ∈ d.dependencies) ∧ Outlay T ev x
      ((s.opened x d).debt T + d.dependencies.length * T.cost (T.rank (s.node x).site))
      (s.node x).site g.1 g.2.2) ?_ ⟨fun _ h => h, ?_⟩).2
  · rintro _ _ (⟨e⟩ | _ | @⟨e, ds, ids, t, c, hc⟩) ⟨hsub, h⟩
    · exact ⟨hsub, h.emit e⟩
    · exact ⟨fun e he => hsub e (List.mem_cons_of_mem _ he), h.leave⟩
    · exact ⟨fun e he => hsub e (List.mem_cons_of_mem _ he),
        h.adopt hg ha (hsub e (List.mem_cons_self ..)) hc⟩
  · refine ⟨hx.trans_eq hsize.symm, fun j hj => ?_, view_opened d Node.site fun _ => rfl,
      (view_opened d Node.state fun _ => rfl).trans hi, tame_opened ht hi ha, le_rfl⟩
    rw [hsize]
    exact hs.lt_size_of_contender hj

theorem tame_expand : (s.expand rules x d).2.Tame T ev := (outlay_expand ht hi ha hs hg).tame

theorem debt_expand_lt (hr : x ≠ Graph.root) (hx : (s.node x).expanded = false) :
    (s.expand rules x d).2.debt T < s.debt T := by
  have hxs : x < s.graph.size := Graph.lt_size_of_isIncluded (isIncluded_iff.mpr hi)
  have hxp : s.InPlay x := hs.inPlay hr (.inr hi)
  have hself := node_opened_self d hxs
  have hopen : (s.opened x d).debt T + T.price (T.rank (s.node x).site) ≤ s.debt T := by
    refine debt_add_le (size_opened d) hxs (fun j hj => ?_) ?_
    · refine owes_le inPlay_opened.mp fun _ => ?_
      rw [node_opened_of_ne d hj]
    · rw [owes_of_inPlay hxp, owes_of_inPlay (inPlay_opened.mpr hxp), hself]
      simp only [Node.due, Node.share, hi, hx, Bool.false_eq_true, if_true, if_false,
        Nat.add_zero, Nat.mul_succ]
      exact le_rfl
  have hout := (outlay_expand ht hi ha hs hg).debt
  have hlen : d.dependencies.length * T.cost (T.rank (s.node x).site) ≤
      T.width * T.cost (T.rank (s.node x).site) := Nat.mul_le_mul_right _ ha.length
  rw [T.price_eq] at hopen
  rw [List.length_nil, Nat.zero_mul] at hout
  omega

end Expand

end Collection

end Mediation
