import Mediation.Proofs.Collection.Gain

/-! # Sprouting

An expansion opens a node and then adopts children one by one. Each child is a leaf with
the next id; it closes a cycle, or becomes a pending contender of the next level.
-/

namespace Mediation.Collection

variable {rules : Rules} {s t : Collection} {i j p : ℕ} {c : Child}

def opened (s : Collection) (id : NodeId) (d : Descriptor) : Collection :=
  s.update id fun n =>
    { n with
      expanded := true
      artifact := { n.artifact with resolved := true }
      management := d.management }

section Opened

variable (d : Descriptor)

theorem size_opened : (s.opened i d).graph.size = s.graph.size := Graph.size_update _ _ _

theorem node_opened_self (h : i < s.graph.size) : (s.opened i d).node i =
    { s.node i with
      expanded := true
      artifact := { (s.node i).artifact with resolved := true }
      management := d.management } := node_update_self h

theorem node_opened_of_ne (h : j ≠ i) : (s.opened i d).node j = s.node j :=
  node_update_of_ne (Ne.symm h)

theorem view_opened {α : Type} (v : Node → α)
    (hv : ∀ n : Node, v { n with
      expanded := true
      artifact := { n.artifact with resolved := true }
      management := d.management } = v n) : v ((s.opened i d).node j) = v (s.node j) :=
  view_update v hv s i j

end Opened

variable {d : Dependency}

def Imposes (rules : Rules) (s : Collection) (k : Key) (pin : Pin) : Prop :=
  rules.pins.get? k = some pin ∨ ∃ i : ℕ, (s.node i).management.get? k = some pin

/-- Whether a child may come from a dependency, pinned or not. -/
structure Stems (rules : Rules) (s : Collection) (d : Dependency) (c : Child) : Prop where
  coordinate : c.coordinate = d.coordinate
  constraint : c.constraint = d.constraint ∨
    ∃ pin, s.Imposes rules d.coordinate.key pin ∧ pin.version = some c.constraint

abbrev Growth := List Dependency × List NodeId × Collection

/-- What may happen to the next dependency below the node `p`. -/
inductive Sprout (rules : Rules) (p : NodeId) : Growth → Growth → Prop
  | tell {ds : List Dependency} {ids : List NodeId} {s : Collection} (e : Event) :
      Sprout rules p (ds, ids, s) (ds, ids, s.emit e)
  | leave {d : Dependency} {ds : List Dependency} {ids : List NodeId} {s : Collection} :
      Sprout rules p (d :: ds, ids, s) (ds, ids, s)
  | adopt {d : Dependency} {ds : List Dependency} {ids : List NodeId} {s : Collection}
      {c : Child} (hs : s.Stems rules d c) :
      Sprout rules p (d :: ds, ids, s) (ds, ids ++ (s.adopt p c).1.toList, (s.adopt p c).2)

abbrev Sprouts (rules : Rules) (p : NodeId) : Growth → Growth → Prop :=
  Relation.ReflTransGen (Sprout rules p)

theorem Sprouts.preserve {P : Growth → Prop} {a b : Growth} (h : Sprouts rules p a b)
    (hP : ∀ a b, Sprout rules p a b → P a → P b) (ha : P a) : P b := by
  induction h with
  | refl => exact ha
  | tail _ hm ih => exact hP _ _ hm ih

theorem imposes_of_pinBelow {k : Key} {pin : Pin} (h : s.pinBelow rules p k = some pin) :
    s.Imposes rules k pin := by
  rw [pinBelow, Option.or_eq_some_iff] at h
  obtain h | ⟨-, h⟩ := h
  · exact .inl h
  · obtain ⟨i, -, hi⟩ := List.exists_of_findSome?_eq_some h
    exact .inr ⟨i, hi⟩

theorem stems_of_childBelow {pin : Option Pin} {above : Node} {filter : Option ScopeFilter}
    (hp : ∀ x ∈ pin, s.Imposes rules d.coordinate.key x)
    (h : (pin.elim d d.pinned).childBelow above filter = some c) : s.Stems rules d c := by
  obtain ⟨scope, -, h⟩ := Option.bind_eq_some_iff.mp h
  obtain ⟨-, -, h⟩ := Option.bind_eq_some_iff.mp h
  cases pin with
  | none =>
    cases h
    exact ⟨rfl, .inl rfl⟩
  | some x =>
    cases h
    refine ⟨rfl, ?_⟩
    cases hv : x.version with
    | none => exact .inl (by simp [Dependency.pinned, hv])
    | some v => exact .inr ⟨x, hp x rfl, by simp [Dependency.pinned, hv]⟩

theorem sprouts_attach (rules : Rules) (p : NodeId) (d : Dependency) (ds : List Dependency)
    (ids : List NodeId) (s : Collection) : Sprouts rules p (d :: ds, ids, s)
      (ds, ids ++ (s.attach rules p d).1.toList, (s.attach rules p d).2) := by
  unfold attach
  dsimp only
  split
  · simpa using .single .leave
  · have hp : ∀ x ∈ (if (s.node p).depth = 0 then none
        else s.pinBelow rules p d.coordinate.key), s.Imposes rules d.coordinate.key x := by
      intro x hx
      split at hx
      · cases hx
      · exact imposes_of_pinBelow hx
    generalize (if (s.node p).depth = 0 then none
      else s.pinBelow rules p d.coordinate.key) = pin at hp ⊢
    have ht : Sprouts rules p (d :: ds, ids, s) (d :: ds, ids, pin.elim s fun x =>
        s.emit (.managed (d.declaredArtifact (s.node p).artifact.trail) x)) := by
      cases pin with
      | none => exact .refl
      | some x => exact .single (.tell _)
    have hp' : ∀ x ∈ pin, (pin.elim s fun x =>
        s.emit (.managed (d.declaredArtifact (s.node p).artifact.trail) x)).Imposes rules
          d.coordinate.key x := by
      cases pin with
      | none => exact nofun
      | some x => exact hp
    refine ht.trans ?_
    split
    · simpa using .single .leave
    · rename_i c hc
      exact .single (.adopt (stems_of_childBelow hp' hc))

theorem sprouts_attachAll (rules : Rules) (p : NodeId) (ds : List Dependency)
    (ids : List NodeId) (s : Collection) : Sprouts rules p (ds, ids, s)
      ([], ids ++ (s.attachAll rules p ds).1, (s.attachAll rules p ds).2) := by
  induction ds generalizing ids s with
  | nil => simpa [attachAll] using .refl
  | cons d ds ih =>
    have h := (sprouts_attach rules p d ds ids s).trans (ih _ _)
    simpa [attachAll] using h

theorem sprouts_expand (rules : Rules) (s : Collection) (id : NodeId) (d : Descriptor) :
    Sprouts rules id (d.dependencies, [], s.opened id d)
      ([], (s.expand rules id d).1, (s.expand rules id d).2) := by
  have h := sprouts_attachAll rules id d.dependencies []
    ((s.opened id d).emit (.expanding ((s.opened id d).node id).artifact))
  exact .head (.tell _) (.tail h (.tell _))

theorem graph_adopt (s : Collection) (p : NodeId) (c : Child) :
    (s.adopt p c).2.graph = s.graph.attach p c := by
  unfold adopt
  dsimp only
  split <;> rfl

theorem size_adopt (s : Collection) (p : NodeId) (c : Child) :
    (s.adopt p c).2.graph.size = s.graph.size + 1 := by
  rw [graph_adopt]
  exact Graph.size_attach _ _ _

theorem node_adopt (h : p < s.graph.size) (c : Child) (i : ℕ) : (s.adopt p c).2.node i =
    if i = p then { s.node p with children := (s.node p).children ++ [s.graph.size] }
    else if i = s.graph.size then s.graph.childNode p c else s.node i := by
  rw [node, graph_adopt, Graph.node_attach h, Graph.children_eq]
  rfl

theorem node_adopt_size (h : p < s.graph.size) (c : Child) :
    (s.adopt p c).2.node s.graph.size = s.graph.childNode p c := by
  rw [node_adopt h, if_neg h.ne', if_pos rfl]

/-- An adoption shows in the children of the parent only, and in no other view of an old node. -/
theorem view_adopt {α : Type} (v : Node → α)
    (hv : ∀ (n : Node) cs, v { n with children := cs } = v n) (h : p < s.graph.size) (c : Child)
    (hj : j ≠ s.graph.size) : v ((s.adopt p c).2.node j) = v (s.node j) := by
  rw [node_adopt h]
  split
  · rename_i hjp
    rw [hv, hjp]
  · rfl

section

variable (h : p < s.graph.size) (c : Child) (hj : j ≠ s.graph.size)
include h hj

theorem state_adopt : ((s.adopt p c).2.node j).state = (s.node j).state :=
  view_adopt Node.state (fun _ _ => rfl) h c hj

theorem parent_adopt : ((s.adopt p c).2.node j).parent = (s.node j).parent :=
  view_adopt Node.parent (fun _ _ => rfl) h c hj

theorem key_adopt : ((s.adopt p c).2.node j).key = (s.node j).key :=
  view_adopt Node.key (fun _ _ => rfl) h c hj

theorem version_adopt : ((s.adopt p c).2.node j).version = (s.node j).version :=
  view_adopt Node.version (fun _ _ => rfl) h c hj

theorem expanded_adopt : ((s.adopt p c).2.node j).expanded = (s.node j).expanded :=
  view_adopt Node.expanded (fun _ _ => rfl) h c hj

end

/-- Every new contender is pending, and every pending node is created for the next level. -/
theorem adopt_cases (h : p < s.graph.size) (c : Child) :
    ((s.graph.childNode p c).state = .omittedForCycle ∧ (s.adopt p c).1 = none ∧
      (s.adopt p c).2.contenders = s.contenders) ∨
    ((s.graph.childNode p c).state = .pending ∧ (s.adopt p c).1 = some s.graph.size ∧
      (s.adopt p c).2.contenders = s.contenders ++ [s.graph.size]) := by
  have hs : (s.graph.attach p c).node s.graph.size = s.graph.childNode p c :=
    Graph.node_attach_size h c
  unfold adopt
  dsimp only
  simp only [node_emit]
  by_cases hc : ((s.graph.attach p c).node s.graph.size).state = .omittedForCycle
  · refine .inl ⟨hs ▸ hc, ?_⟩
    simp only [node, hc, if_true]
    exact ⟨trivial, rfl⟩
  · refine .inr ⟨?_, ?_⟩
    · rw [hs] at hc
      unfold Graph.childNode at hc ⊢
      dsimp only at hc ⊢
      split
      · rename_i ht
        exact absurd (if_pos ht) hc
      · rfl
    · simp only [node, hc, if_false]
      exact ⟨trivial, rfl⟩

theorem ne_size_of_included_adopt (h : p < s.graph.size) (c : Child)
    (hj : ((s.adopt p c).2.node j).state = .included) : j ≠ s.graph.size := by
  rintro rfl
  rw [node_adopt_size h] at hj
  obtain ⟨hs, -⟩ | ⟨hs, -⟩ := adopt_cases h c <;> rw [hs] at hj <;> cases hj

theorem mem_contenders_adopt (h : p < s.graph.size) (c : Child) (hj : j ∈ s.contenders) :
    j ∈ (s.adopt p c).2.contenders := by
  obtain ⟨-, -, hs⟩ | ⟨-, -, hs⟩ := adopt_cases h c <;> rw [hs]
  · exact hj
  · exact List.mem_append_left _ hj

theorem of_mem_contenders_adopt (h : p < s.graph.size) (c : Child)
    (hj : j ∈ (s.adopt p c).2.contenders) : j ∈ s.contenders ∨ j = s.graph.size := by
  obtain ⟨-, -, hs⟩ | ⟨-, -, hs⟩ := adopt_cases h c <;> rw [hs] at hj
  · exact .inl hj
  · exact (List.mem_append.mp hj).imp_right List.mem_singleton.mp

theorem mem_children_adopt (h : p < s.graph.size) (c : Child) {q : ℕ}
    (hj : j ∈ (s.node q).children) : j ∈ ((s.adopt p c).2.node q).children := by
  have hq : q < s.graph.size := Graph.lt_size_of_mem_children ((children_eq s q).symm ▸ hj)
  rw [node_adopt h]
  split
  · rename_i hqp
    exact List.mem_append_left _ (hqp ▸ hj)
  · rwa [if_neg hq.ne]

theorem of_mem_children_adopt (h : p < s.graph.size) (c : Child) {q : ℕ}
    (hj : j ∈ ((s.adopt p c).2.node q).children) :
    j ∈ (s.node q).children ∨ q = p ∧ j = s.graph.size := by
  rw [node_adopt h] at hj
  split at hj
  · rename_i hq
    obtain hj | hj := List.mem_append.mp hj
    · exact .inl (hq ▸ hj)
    · exact .inr ⟨hq, List.mem_singleton.mp hj⟩
  · split at hj
    · cases hj
    · exact .inl hj

namespace Sound

variable (h : s.Sound)
include h

theorem opened (hi : (s.node i).state = .included) (d : Descriptor) : (s.opened i d).Sound := by
  have hsite (j : ℕ) : ((s.opened i d).node j).site = (s.node j).site :=
    view_opened d Node.site fun _ => rfl
  have hparent (j : ℕ) := Node.parent_of_site (hsite j)
  have hkey (j : ℕ) := Node.key_of_site (hsite j)
  have hchildren (j : ℕ) : ((s.opened i d).node j).children = (s.node j).children :=
    view_opened d Node.children fun _ => rfl
  have hstate (j : ℕ) : ((s.opened i d).node j).state = (s.node j).state :=
    view_opened d Node.state fun _ => rfl
  have hversion (j : ℕ) : ((s.opened i d).node j).version = (s.node j).version :=
    view_opened d Node.version fun _ => rfl
  have hself := node_opened_self d (Graph.lt_size_of_isIncluded (isIncluded_iff.mpr hi))
  have hne {j : ℕ} (hj : j ≠ i) := node_opened_of_ne (s := s) d hj
  exact {
    tree := by
      refine h.tree.of_sites (size_opened d) hsite fun j => ?_
      rw [children_eq, children_eq, hchildren]
    root_included := by rw [hstate, h.root_included]
    fresh j hj := by
      by_cases hji : j = i
      · rw [hji, hself] at hj
        cases hj
      · rw [hne hji] at hj ⊢
        exact h.fresh j hj
    resolved j hj := by
      by_cases hji : j = i
      · rw [hji, hself]
      · rw [hne hji] at hj ⊢
        exact h.resolved j hj
    idle j hj := by
      have hji : j ≠ i := by
        rintro rfl
        rw [hstate, hi] at hj
        cases hj
      rw [hne hji] at hj ⊢
      exact h.idle j hj
    contender j := by
      simp only [hparent, hchildren]
      exact h.contender j
    live j := by
      simp only [hstate, hparent]
      exact h.live j
    unique j k := by
      simp only [hstate, hkey]
      exact h.unique j k
    attached p c := by
      simp only [hstate, hchildren]
      exact h.attached p c
    versioned j := by
      simp only [hstate, hversion]
      exact h.versioned j
    settled p c := by
      simp only [hstate, hchildren, hversion]
      exact h.settled p c }

variable (hp : (s.node p).state = .included) (c : Child)
include hp

theorem fresh_adopt (hx : (s.node p).expanded = true)
    (hj : ((s.adopt p c).2.node j).expanded = false) :
    ((s.adopt p c).2.node j).children = [] := by
  have hps : p < s.graph.size := Graph.lt_size_of_isIncluded (isIncluded_iff.mpr hp)
  by_cases hjs : j = s.graph.size
  · rw [hjs, node_adopt_size hps]
    rfl
  · rw [expanded_adopt hps c hjs] at hj
    have hjp : j ≠ p := by
      rintro rfl
      rw [hx] at hj
      cases hj
    rw [node_adopt hps, if_neg hjp, if_neg hjs]
    exact h.fresh j hj

theorem contender_adopt (hj : j ∈ (s.adopt p c).2.contenders) :
    ∃ q : ℕ, ((s.adopt p c).2.node j).parent = some q ∧
      j ∈ ((s.adopt p c).2.node q).children := by
  have hps : p < s.graph.size := Graph.lt_size_of_isIncluded (isIncluded_iff.mpr hp)
  by_cases hjs : j = s.graph.size
  · subst hjs
    refine ⟨p, ?_, ?_⟩
    · rw [node_adopt_size hps]
      rfl
    · rw [node_adopt hps, if_pos rfl]
      simp
  · have hj : j ∈ s.contenders := (of_mem_contenders_adopt hps c hj).resolve_right hjs
    obtain ⟨q, hq, hm⟩ := h.contender j hj
    exact ⟨q, (parent_adopt hps c hjs).trans hq, mem_children_adopt hps c hm⟩

theorem live_adopt (hr : j ≠ Graph.root) (hj : ((s.adopt p c).2.node j).state = .pending ∨
    ((s.adopt p c).2.node j).state = .included) : j ∈ (s.adopt p c).2.contenders ∧
      ∃ q : ℕ, ((s.adopt p c).2.node j).parent = some q ∧
        ((s.adopt p c).2.node q).state = .included := by
  have hps : p < s.graph.size := Graph.lt_size_of_isIncluded (isIncluded_iff.mpr hp)
  by_cases hjs : j = s.graph.size
  · subst hjs
    rw [node_adopt_size hps] at hj ⊢
    refine ⟨?_, p, rfl, (state_adopt hps c hps.ne).trans hp⟩
    obtain ⟨hs, -⟩ | ⟨-, -, hs⟩ := adopt_cases hps c
    · rw [hs] at hj
      exact absurd hj (by decide)
    · simp [hs]
  · rw [state_adopt hps c hjs] at hj
    obtain ⟨hc, q, hq, hqi⟩ := h.live j hr hj
    have hqs : q ≠ s.graph.size :=
      ((h.tree.lt_of_parent hq).trans (h.lt_size_of_contender hc)).ne
    exact ⟨mem_contenders_adopt hps c hc, q, (parent_adopt hps c hjs).trans hq,
      (state_adopt hps c hqs).trans hqi⟩

/-- A child of an included node is an old one of it, or the new one. -/
theorem child_of_included_adopt (hq : ((s.adopt p c).2.node q).state = .included)
    (hi : i ∈ ((s.adopt p c).2.node q).children) :
    ((s.node q).state = .included ∧ i ∈ (s.node q).children ∧ i < s.graph.size) ∨
      i = s.graph.size := by
  have hps : p < s.graph.size := Graph.lt_size_of_isIncluded (isIncluded_iff.mpr hp)
  rw [state_adopt hps c (ne_size_of_included_adopt hps c hq)] at hq
  exact (of_mem_children_adopt hps c hi).imp (fun hi => ⟨hq, hi, (h.child hi).1⟩) And.right

theorem adopt (hx : (s.node p).expanded = true) : (s.adopt p c).2.Sound := by
  have hps : p < s.graph.size := Graph.lt_size_of_isIncluded (isIncluded_iff.mpr hp)
  have hself := node_adopt_size hps c
  have hlt {j : ℕ} (hj : ((s.adopt p c).2.node j).state = .included) : j ≠ s.graph.size :=
    ne_size_of_included_adopt hps c hj
  exact {
    tree := graph_adopt s p c ▸ h.tree.attach hps c
    root_included := (state_adopt hps c (Nat.ne_of_lt h.tree.size_pos)).trans h.root_included
    fresh j hj := h.fresh_adopt hp c hx hj
    resolved j hj := by
      by_cases hjs : j = s.graph.size
      · rw [hjs, hself] at hj
        cases hj
      · rw [expanded_adopt hps c hjs] at hj
        rw [view_adopt (fun n => n.artifact.resolved) (fun _ _ => rfl) hps c hjs]
        exact h.resolved j hj
    idle j hj := by
      by_cases hjs : j = s.graph.size
      · rw [hjs, hself]
        rfl
      · rw [state_adopt hps c hjs] at hj
        rw [expanded_adopt hps c hjs]
        exact h.idle j hj
    contender j hj := h.contender_adopt hp c hj
    live j hr hj := h.live_adopt hp c hr hj
    unique j k hj hk hji hki := by
      rw [key_adopt hps c (hlt hji), key_adopt hps c (hlt hki)]
      rw [state_adopt hps c (hlt hji)] at hji
      rw [state_adopt hps c (hlt hki)] at hki
      exact h.unique j k hj hk hji hki
    attached q i hq hi := by
      rcases h.child_of_included_adopt hp c hq hi with ⟨hq, hi, his⟩ | rfl
      · rw [state_adopt hps c his.ne]
        exact (h.attached q i hq hi).imp_left (mem_contenders_adopt hps c)
      · rw [hself]
        obtain ⟨hs, -⟩ | ⟨-, -, hs⟩ := adopt_cases hps c
        · exact .inr hs
        · exact .inl (by simp [hs])
    versioned j hr hj := by
      rw [version_adopt hps c (hlt hj)]
      exact h.versioned j hr ((state_adopt hps c (hlt hj)).symm.trans hj)
    settled q i hq hi hs := by
      rcases h.child_of_included_adopt hp c hq hi with ⟨hq, hi, his⟩ | rfl
      · rw [state_adopt hps c his.ne] at hs
        rw [version_adopt hps c his.ne]
        exact h.settled q i hq hi hs
      · rw [hself] at hs
        obtain ⟨hs', -⟩ | ⟨hs', -⟩ := adopt_cases hps c <;> rw [hs'] at hs <;> cases hs }

theorem seated_adopt {ks : List Key} (hs : s.Seated ks) : (s.adopt p c).2.Seated ks := by
  have hps : p < s.graph.size := Graph.lt_size_of_isIncluded (isIncluded_iff.mpr hp)
  intro m q hm hmq hq ho
  have hms : m ≠ s.graph.size := by
    rintro rfl
    rw [node_adopt_size hps] at ho
    obtain ⟨hs', -⟩ | ⟨hs', -⟩ := adopt_cases hps c <;> rw [hs'] at ho <;> cases ho
  have hm' : m ∈ s.contenders := (of_mem_contenders_adopt hps c hm).resolve_right hms
  rw [parent_adopt hps c hms] at hmq
  have hqs : q ≠ s.graph.size :=
    ((h.tree.lt_of_parent hmq).trans (h.lt_size_of_contender hm')).ne
  rw [state_adopt hps c hqs] at hq
  rw [state_adopt hps c hms] at ho
  rw [key_adopt hps c hms]
  obtain hw | ⟨w, hr, hw, hk⟩ := hs m q hm' hmq hq ho
  · exact .inl hw
  · have hws : w ≠ s.graph.size :=
      (Graph.lt_size_of_isIncluded (isIncluded_iff.mpr hw)).ne
    exact .inr ⟨w, hr, (state_adopt hps c hws).trans hw,
      (key_adopt hps c hws).trans hk⟩

end Sound

end Mediation.Collection
