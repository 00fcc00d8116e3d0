import Mediation.Proofs.Collection.Loss

/-! # Gaining nodes

A leaf may be accepted if its parent is included and its identity has no winner. An
included node may be expanded; its children are pending, or close a cycle.
-/

namespace Mediation.Collection

variable {s t : Collection} {i j p c x : ℕ} {ks : List Key}

namespace Sound

variable (h : s.Sound)
include h

section Accept

variable (hx : x ∈ s.contenders)
include hx

theorem accept_node (j : ℕ) : (s.accept x).node j =
    if j = x then { s.node x with state := .included, kept := none } else s.node j := by
  rw [node_accept]
  by_cases hj : j = x
  · subst hj
    simp [h.lt_size_of_contender hx]
  · have hj' : x ≠ j := fun he => hj he.symm
    simp [hj, hj']

variable (hl : (s.node x).expanded = false)
  (hp : ∃ p : ℕ, (s.node x).parent = some p ∧ (s.node p).state = .included)
  (hv : (s.node x).version.isSome = true)
  (hu : ∀ w : ℕ, w ≠ Graph.root → (s.node w).state = .included → (s.node w).key ≠ (s.node x).key)
include hl hp hv hu

theorem accept : (s.accept x).Sound := by
  have hview {α : Type} (v : Node → α)
      (hv : ∀ n : Node, v { n with state := .included, kept := none } = v n) (j : ℕ) :
      v ((s.accept x).node j) = v (s.node j) := view_accept v hv
  have hsite (j : ℕ) := hview Node.site (fun _ => rfl) j
  have hparent (j : ℕ) := Node.parent_of_site (hsite j)
  have hkey (j : ℕ) := Node.key_of_site (hsite j)
  have hchildren (j : ℕ) := hview Node.children (fun _ => rfl) j
  have hexpanded (j : ℕ) := hview Node.expanded (fun _ => rfl) j
  have hresolved (j : ℕ) := hview (fun n => n.artifact.resolved) (fun _ => rfl) j
  have hversion (j : ℕ) := hview Node.version (fun _ => rfl) j
  have hincl (j : ℕ) (hj : ((s.accept x).node j).state = .included) :
      j = x ∨ (s.node j).state = .included := by
    rw [h.accept_node hx] at hj
    by_cases hjx : j = x
    · exact .inl hjx
    · rw [if_neg hjx] at hj
      exact .inr hj
  have hgrow (j : ℕ) (hj : (s.node j).state = .included) :
      ((s.accept x).node j).state = .included := by
    rw [h.accept_node hx]
    split
    · rfl
    · exact hj
  have hne (p c : ℕ) (hc : c ∈ (s.node p).children) : p ≠ x := by
    rintro rfl
    rw [h.fresh _ hl] at hc
    cases hc
  exact {
    tree := by
      refine h.tree.of_sites size_accept hsite fun j => ?_
      rw [children_eq, children_eq, hchildren]
    root_included := hgrow _ h.root_included
    fresh j := by
      rw [hexpanded, hchildren]
      exact h.fresh j
    resolved j := by
      rw [hexpanded, hresolved]
      exact h.resolved j
    idle j hj := by
      rw [hexpanded]
      rw [h.accept_node hx] at hj
      split at hj
      · cases hj
      · exact h.idle j hj
    contender j := by
      simp only [contenders_accept, hparent, hchildren]
      exact h.contender j
    live j hr hj := by
      rw [contenders_accept, hparent]
      by_cases hjx : j = x
      · obtain ⟨q, hq, hqi⟩ := hp
        exact ⟨hjx ▸ hx, q, hjx ▸ hq, hgrow q hqi⟩
      · rw [h.accept_node hx, if_neg hjx] at hj
        obtain ⟨hc, q, hq, hqi⟩ := h.live j hr hj
        exact ⟨hc, q, hq, hgrow q hqi⟩
    unique j k hj hk hji hki := by
      simp only [hkey]
      intro he
      obtain hjx | hj' := hincl j hji
      · obtain hkx | hk' := hincl k hki
        · exact hjx.trans hkx.symm
        · exact absurd (hjx ▸ he).symm (hu k hk hk')
      · obtain hkx | hk' := hincl k hki
        · exact absurd (hkx ▸ he) (hu j hj hj')
        · exact h.unique j k hj hk hj' hk' he
    attached q d hq hd := by
      rw [hchildren] at hd
      obtain hqx | hq := hincl q hq
      · exact absurd hqx (hne q d hd)
      · by_cases hdx : d = x
        · exact .inl (hdx ▸ hx)
        · rw [h.accept_node hx, if_neg hdx]
          exact h.attached q d hq hd
    versioned j hr hj := by
      rw [hversion]
      obtain rfl | hj := hincl j hj
      · exact hv
      · exact h.versioned j hr hj
    settled q d hq hd hs := by
      rw [hchildren] at hd
      rw [hversion]
      obtain hqx | hq := hincl q hq
      · exact absurd hqx (hne q d hd)
      · rw [h.accept_node hx] at hs
        split at hs
        · cases hs
        · exact h.settled q d hq hd hs }

omit hp hv hu in
theorem seated_accept (hs : s.Seated ((s.node x).key :: ks)) : (s.accept x).Seated ks := by
  have hsite (j : ℕ) : ((s.accept x).node j).site = (s.node j).site :=
    view_accept Node.site fun _ => rfl
  have hkey (j : ℕ) := Node.key_of_site (hsite j)
  intro m p hm
  simp only [fun j => Node.parent_of_site (hsite j), hkey]
  intro hmp hpl ho
  rw [contenders_accept] at hm
  have hself : ((s.accept x).node x).state = .included := by
    rw [h.accept_node hx, if_pos rfl]
  have hmx : m ≠ x := by
    rintro rfl
    rw [hself] at ho
    cases ho
  have hpx : p ≠ x := by
    rintro rfl
    obtain ⟨q, hq, hmq⟩ := h.contender m hm
    obtain rfl : q = p := Option.some.inj (hq.symm.trans hmp)
    rw [h.fresh _ hl] at hmq
    cases hmq
  rw [h.accept_node hx, if_neg hpx] at hpl
  rw [h.accept_node hx, if_neg hmx] at ho
  have hxr := h.ne_root_of_contender hx
  obtain hw | ⟨w, hr, hw, hk⟩ := hs m p hm hmp hpl ho
  · obtain hw | hw := List.mem_cons.mp hw
    · exact .inr ⟨x, hxr, hself, hw.symm⟩
    · exact .inl hw
  · refine .inr ⟨w, hr, ?_, hk⟩
    rw [h.accept_node hx]
    split
    · rfl
    · exact hw

end Accept

end Sound

end Mediation.Collection
