import Mediation.Proofs.Collection.Sprout

/-! # Offspring

What an expansion adds to a collection: leaves below the expanded node, which are created
for the next level unless they close a cycle. Nothing else changes.
-/

namespace Mediation

def Node.trunk (n : Node) : Node := { n with children := [] }

namespace Collection

variable {rules : Rules} {s t : Collection} {i j p x : ℕ} {ids : List NodeId}

theorem requeue_adopt (s : Collection) (p : NodeId) (c : Child) :
    (s.adopt p c).2.requeue = s.requeue := by
  unfold adopt
  dsimp only
  split <;> rfl

theorem problems_adopt (s : Collection) (p : NodeId) (c : Child) :
    (s.adopt p c).2.problems = s.problems := by
  unfold adopt
  dsimp only
  split <;> rfl

/-- A collection with more leaves below one node, of which the pending ones are listed. -/
structure Adds (p : ℕ) (s t : Collection) (ids : List NodeId) : Prop where
  size : s.graph.size ≤ t.graph.size
  requeue : t.requeue = s.requeue
  problems : t.problems = s.problems
  old : ∀ j < s.graph.size, (t.node j).trunk = (s.node j).trunk
  bare : ∀ j < t.graph.size, s.graph.size ≤ j → (t.node j).version = none
  blank : ∀ j < t.graph.size, s.graph.size ≤ j →
    (t.node j).constraint = (t.node j).declaredConstraint
  fate : ∀ j < t.graph.size, s.graph.size ≤ j →
    (t.node j).state = .omittedForCycle ∨ (t.node j).state = .pending ∧ j ∈ ids
  created : ∀ j ∈ ids, s.graph.size ≤ j ∧ j < t.graph.size
  sorted : ids.Pairwise (· < ·)

namespace Adds

variable (h : Adds p s t ids)
include h

theorem view {α : Type} (v : Node → α) (hv : ∀ (n : Node) cs, v { n with children := cs } = v n)
    (hj : j < s.graph.size) : v (t.node j) = v (s.node j) := by
  have h₁ : v (t.node j).trunk = v (s.node j).trunk := congrArg v (h.old j hj)
  exact ((hv _ []).symm.trans h₁).trans (hv _ [])

theorem adopt (hp : p < s.graph.size) (c : Child) :
    Adds p s (t.adopt p c).2 (ids ++ (t.adopt p c).1.toList) := by
  have hpt : p < t.graph.size := hp.trans_le h.size
  have hview {α : Type} (v : Node → α) (hv : ∀ (n : Node) cs, v { n with children := cs } = v n)
      {j : ℕ} (hj : j < t.graph.size) : v ((t.adopt p c).2.node j) = v (t.node j) :=
    view_adopt v hv hpt c hj.ne
  have hlt {j : ℕ} (hj : j < (t.adopt p c).2.graph.size) :
      j < t.graph.size ∨ j = t.graph.size := by
    rw [size_adopt] at hj
    omega
  have hself : (t.adopt p c).2.node t.graph.size = t.graph.childNode p c := node_adopt_size hpt c
  exact {
    size := by
      rw [size_adopt]
      exact h.size.trans (Nat.le_succ _)
    requeue := by rw [requeue_adopt, h.requeue]
    problems := by rw [problems_adopt, h.problems]
    old j hj := (hview Node.trunk (fun _ _ => rfl) (hj.trans_le h.size)).trans (h.old j hj)
    bare j hj hs := by
      obtain hj | rfl := hlt hj
      · exact (hview Node.version (fun _ _ => rfl) hj).trans (h.bare j hj hs)
      · rw [hself]; rfl
    blank j hj hs := by
      obtain hj | rfl := hlt hj
      · rw [hview Node.constraint (fun _ _ => rfl) hj,
          hview Node.declaredConstraint (fun _ _ => rfl) hj]
        exact h.blank j hj hs
      · rw [hself]; rfl
    fate j hj hs := by
      obtain hj | rfl := hlt hj
      · rw [hview Node.state (fun _ _ => rfl) hj]
        exact (h.fate j hj hs).imp_right fun hf => ⟨hf.1, List.mem_append_left _ hf.2⟩
      · rw [hself]
        obtain ⟨hs, -⟩ | ⟨hs, hc, -⟩ := adopt_cases hpt c
        · exact .inl hs
        · exact .inr ⟨hs, by simp [hc]⟩
    created j hj := by
      rw [size_adopt]
      obtain hj | hj := List.mem_append.mp hj
      · exact ⟨(h.created j hj).1, Nat.lt_succ_of_lt (h.created j hj).2⟩
      · obtain ⟨-, hc, -⟩ | ⟨-, hc, -⟩ := adopt_cases hpt c
        · simp [hc] at hj
        · obtain rfl : j = t.graph.size := by simpa [hc] using hj
          exact ⟨h.size, Nat.lt_succ_self _⟩
    sorted := by
      refine List.pairwise_append.mpr ⟨h.sorted, ?_, fun i hi j hj => ?_⟩
      · rcases adopt_cases hpt c with ⟨-, hc, -⟩ | ⟨-, hc, -⟩ <;> simp [hc]
      · rcases adopt_cases hpt c with ⟨-, hc, -⟩ | ⟨-, hc, -⟩
        · simp [hc] at hj
        · obtain rfl : j = t.graph.size := by simpa [hc] using hj
          exact (h.created i hi).2 }

end Adds

theorem adds_of_sprouts {g : Growth} {d : Descriptor} (hx : x < s.graph.size)
    (hg : Sprouts rules x (d.dependencies, [], s.opened x d) g) :
    Adds x (s.opened x d) g.2.2 g.2.1 := by
  have hsize : (s.opened x d).graph.size = s.graph.size := size_opened d
  refine hg.preserve (P := fun g => Adds x (s.opened x d) g.2.2 g.2.1) ?_ ?_
  · rintro _ _ (⟨e⟩ | _ | @⟨d', ds, ids, t, c, hc⟩) ht
    · exact ⟨ht.size, ht.requeue, ht.problems, ht.old, ht.bare, ht.blank, ht.fate, ht.created,
        ht.sorted⟩
    · exact ht
    · exact ht.adopt (hsize ▸ hx) c
  · have hno {P : ℕ → Prop} (j : ℕ) (hj : j < (s.opened x d).graph.size)
        (hs : (s.opened x d).graph.size ≤ j) : P j := absurd hj (not_lt.mpr hs)
    exact ⟨le_rfl, rfl, rfl, fun _ _ => rfl, hno, hno, hno, nofun, .nil⟩

theorem adds_expand (rules : Rules) (hx : x < s.graph.size) (d : Descriptor) :
    Adds x (s.opened x d) (s.expand rules x d).2 (s.expand rules x d).1 :=
  adds_of_sprouts hx (sprouts_expand rules s x d)

section Expand

variable (hx : x < s.graph.size) (d : Descriptor)
include hx

theorem size_le_expand : s.graph.size ≤ (s.expand rules x d).2.graph.size :=
  (size_opened d).symm.trans_le (adds_expand rules hx d).size

theorem requeue_expand : (s.expand rules x d).2.requeue = s.requeue :=
  (adds_expand rules hx d).requeue

theorem problems_expand : (s.expand rules x d).2.problems = s.problems :=
  (adds_expand rules hx d).problems

/-- An expansion shows in no view of an old node but in those of the expanded one. -/
theorem view_expand {α : Type} (v : Node → α)
    (hv : ∀ n : Node, v { n with
      expanded := true
      artifact := { n.artifact with resolved := true }
      management := d.management } = v n)
    (hc : ∀ (n : Node) cs, v { n with children := cs } = v n) (hj : j < s.graph.size) :
    v ((s.expand rules x d).2.node j) = v (s.node j) := by
  have hs : j < (s.opened x d).graph.size := hj.trans_eq (size_opened d).symm
  exact ((adds_expand rules hx d).view v hc hs).trans (view_opened d v hv)

theorem state_expand (hj : j < s.graph.size) :
    ((s.expand rules x d).2.node j).state = (s.node j).state :=
  view_expand hx d Node.state (fun _ => rfl) (fun _ _ => rfl) hj

theorem key_expand (hj : j < s.graph.size) :
    ((s.expand rules x d).2.node j).key = (s.node j).key :=
  view_expand hx d Node.key (fun _ => rfl) (fun _ _ => rfl) hj

theorem constraint_expand (hj : j < s.graph.size) :
    ((s.expand rules x d).2.node j).constraint = (s.node j).constraint :=
  view_expand hx d Node.constraint (fun _ => rfl) (fun _ _ => rfl) hj

theorem declaredConstraint_expand (hj : j < s.graph.size) :
    ((s.expand rules x d).2.node j).declaredConstraint = (s.node j).declaredConstraint :=
  view_expand hx d Node.declaredConstraint (fun _ => rfl) (fun _ _ => rfl) hj

theorem expanded_expand (hj : j < s.graph.size) :
    ((s.expand rules x d).2.node j).expanded = (j == x || (s.node j).expanded) := by
  have hs : j < (s.opened x d).graph.size := hj.trans_eq (size_opened d).symm
  rw [(adds_expand rules hx d).view Node.expanded (fun _ _ => rfl) hs]
  by_cases hjx : j = x
  · subst hjx
    rw [node_opened_self d hj]
    simp
  · rw [node_opened_of_ne d hjx]
    simp [hjx]

theorem fate_of_new (hj : ¬ j < s.graph.size)
    (hs : ((s.expand rules x d).2.node j).state ≠ .failed) :
    ((s.expand rules x d).2.node j).state = .omittedForCycle ∨
      ((s.expand rules x d).2.node j).state = .pending ∧ j ∈ (s.expand rules x d).1 :=
  (adds_expand rules hx d).fate j (Graph.lt_size_of_state hs)
    ((size_opened d).trans_le (not_lt.mp hj))

theorem version_expand (hj : ((s.expand rules x d).2.node j).version.isSome = true) :
    j < s.graph.size ∧ (s.node j).version.isSome = true := by
  by_cases hjs : j < s.graph.size
  · rw [view_expand hx d Node.version (fun _ => rfl) (fun _ _ => rfl) hjs] at hj
    exact ⟨hjs, hj⟩
  · have hjt : j < (s.expand rules x d).2.graph.size := by
      by_contra hn
      rw [node_of_size_le (not_lt.mp hn)] at hj
      cases hj
    rw [(adds_expand rules hx d).bare j hjt
      ((size_opened d).trans_le (not_lt.mp hjs))] at hj
    cases hj

theorem pending_expand (hj : ((s.expand rules x d).2.node j).state = .pending) :
    j < s.graph.size ∧ (s.node j).state = .pending ∨ j ∈ (s.expand rules x d).1 := by
  by_cases hjs : j < s.graph.size
  · rw [state_expand hx d hjs] at hj
    exact .inl ⟨hjs, hj⟩
  · obtain hc | hc := fate_of_new hx d hjs (by rw [hj]; decide)
    · rw [hj] at hc
      cases hc
    · exact .inr hc.2

theorem blank_expand (hb : ∀ j : ℕ, (s.node j).state = .pending →
      (s.node j).constraint = (s.node j).declaredConstraint)
    (hj : ((s.expand rules x d).2.node j).state = .pending) :
    ((s.expand rules x d).2.node j).constraint =
      ((s.expand rules x d).2.node j).declaredConstraint := by
  obtain ⟨hjs, hp⟩ | hc := pending_expand hx d hj
  · rw [constraint_expand hx d hjs, declaredConstraint_expand hx d hjs]
    exact hb j hp
  · obtain ⟨h₁, h₂⟩ := (adds_expand rules hx d).created j hc
    exact (adds_expand rules hx d).blank j h₂ h₁

theorem included_expand (hj : ((s.expand rules x d).2.node j).state = .included) :
    j < s.graph.size ∧ (s.node j).state = .included := by
  by_cases hjs : j < s.graph.size
  · rw [state_expand hx d hjs] at hj
    exact ⟨hjs, hj⟩
  · obtain hc | ⟨hc, -⟩ := fate_of_new hx d hjs (by rw [hj]; decide) <;> rw [hj] at hc <;> cases hc

end Expand

end Collection

end Mediation
