import Mediation.Proofs.Collection.Effect

/-! # Sound collections

What holds of a collection whenever a node is at hand: at most one node of an identity
is included, everything included hangs on included nodes, and every contender still
hangs where it was attached. Each change that decisions are made of keeps this.
-/

namespace Mediation.Collection

variable {s t : Collection} {i j p c x : ℕ} {st : NodeState}

/-- The invariant of a resolution. -/
structure Sound (s : Collection) : Prop where
  tree : s.graph.IsTree
  root_included : (s.node Graph.root).state = .included
  fresh : ∀ i : ℕ, (s.node i).expanded = false → (s.node i).children = []
  resolved : ∀ i : ℕ, (s.node i).expanded = true → (s.node i).artifact.resolved = true
  idle : ∀ i : ℕ, (s.node i).state = .pending → (s.node i).expanded = false
  contender : ∀ i : ℕ, i ∈ s.contenders →
    ∃ p : ℕ, (s.node i).parent = some p ∧ i ∈ (s.node p).children
  live : ∀ i : ℕ, i ≠ Graph.root → (s.node i).state = .pending ∨ (s.node i).state = .included →
    i ∈ s.contenders ∧ ∃ p : ℕ, (s.node i).parent = some p ∧ (s.node p).state = .included
  unique : ∀ i j : ℕ, i ≠ Graph.root → j ≠ Graph.root → (s.node i).state = .included →
    (s.node j).state = .included → (s.node i).key = (s.node j).key → i = j
  attached : ∀ p c : ℕ, (s.node p).state = .included → c ∈ (s.node p).children →
    c ∈ s.contenders ∨ (s.node c).state = .omittedForCycle
  versioned : ∀ i : ℕ, i ≠ Graph.root → (s.node i).state = .included →
    (s.node i).version.isSome = true
  settled : ∀ p c : ℕ, (s.node p).state = .included → c ∈ (s.node p).children →
    (s.node c).state = .omittedForConflict → (s.node c).version.isSome = true

namespace Sound

variable (h : s.Sound)
include h

theorem child (hc : c ∈ (s.node p).children) :
    c < s.graph.size ∧ (s.node c).parent = some p :=
  h.tree.child p c ((children_eq s p).symm ▸ hc)

theorem mem_descendants_iff : c ∈ s.graph.descendants i ↔
    ∃ p : ℕ, c ∈ (s.node p).children ∧ (p = i ∨ p ∈ s.graph.descendants i) := by
  rw [h.tree.mem_descendants_iff]
  simp only [children_eq]

theorem mem_descendants_of_child (hc : c ∈ (s.node p).children)
    (hp : p = i ∨ p ∈ s.graph.descendants i) : c ∈ s.graph.descendants i :=
  h.mem_descendants_iff.mpr ⟨p, hc, hp⟩

/-- The parent of a node below another one is that node, or is below it as well. -/
theorem parent_of_descendant (hc : c ∈ s.graph.descendants i) (hp : c ∈ (s.node p).children) :
    p = i ∨ p ∈ s.graph.descendants i :=
  h.tree.parent_of_descendant hc ((children_eq s p).symm ▸ hp)

theorem not_mem_descendants : i ∉ s.graph.descendants i := h.tree.not_mem_descendants i

theorem root_not_mem_descendants : Graph.root ∉ s.graph.descendants i :=
  fun hi => absurd (h.tree.lt_of_mem_descendants hi) (Nat.not_lt_zero i)

theorem ne_root_of_contender (hi : i ∈ s.contenders) : i ≠ Graph.root := by
  rintro rfl
  obtain ⟨p, hp, -⟩ := h.contender _ hi
  exact absurd hp (by rw [node, h.tree.parent_root]; exact nofun)

theorem lt_size_of_contender (hi : i ∈ s.contenders) : i < s.graph.size := by
  obtain ⟨p, -, hc⟩ := h.contender i hi
  exact (h.child hc).1

/-- The parent of a pending or included node has it as a child, and is included. -/
theorem parent_of_live (hr : i ≠ Graph.root)
    (hi : (s.node i).state = .pending ∨ (s.node i).state = .included) :
    ∃ p : ℕ, (s.node i).parent = some p ∧ (s.node p).state = .included ∧
      i ∈ (s.node p).children := by
  obtain ⟨hc, p, hp, hs⟩ := h.live i hr hi
  obtain ⟨q, hq, hm⟩ := h.contender i hc
  obtain rfl : q = p := Option.some.inj (hq.symm.trans hp)
  exact ⟨q, hp, hs, hm⟩

theorem not_live_below (hi : (s.node i).state ≠ .included) (hj : j ∈ s.graph.descendants i) :
    (s.node j).state ≠ .pending ∧ (s.node j).state ≠ .included := by
  induction j using Nat.strong_induction_on with
  | _ j ih =>
    rw [← not_or]
    intro hl
    have hr : j ≠ Graph.root := fun he => h.root_not_mem_descendants (he ▸ hj)
    obtain ⟨p, -, hs, hm⟩ := h.parent_of_live hr hl
    obtain rfl | hd := h.parent_of_descendant hj hm
    · exact hi hs
    · exact (ih p (h.tree.lt_of_child ((children_eq s p).symm ▸ hm)) hd).2 hs

end Sound

theorem isFatal_of_site (h : (t.node i).site = (s.node i).site) (rules : Rules) :
    t.isFatal rules i = s.isFatal rules i :=
  (congrArg (fun n : Site => !n.optional && (n.depth = 1 || rules.strict)) h :)

/-- Two collections whose nodes stand where they stood, in the same states, and have not lost
their versions. -/
structure SameShape (s t : Collection) : Prop where
  size : t.graph.size = s.graph.size
  contenders : t.contenders = s.contenders
  site : ∀ i : ℕ, (t.node i).site = (s.node i).site
  children : ∀ i : ℕ, (t.node i).children = (s.node i).children
  state : ∀ i : ℕ, (t.node i).state = (s.node i).state
  expanded : ∀ i : ℕ, (t.node i).expanded = (s.node i).expanded
  resolved : ∀ i : ℕ, (t.node i).artifact.resolved = (s.node i).artifact.resolved
  version : ∀ i : ℕ, (s.node i).version.isSome = true → (t.node i).version.isSome = true

theorem SameShape.trans {u : Collection} (h : s.SameShape t) (h' : t.SameShape u) :
    s.SameShape u :=
  ⟨h'.size.trans h.size, h'.contenders.trans h.contenders,
    fun i => (h'.site i).trans (h.site i), fun i => (h'.children i).trans (h.children i),
    fun i => (h'.state i).trans (h.state i), fun i => (h'.expanded i).trans (h.expanded i),
    fun i => (h'.resolved i).trans (h.resolved i), fun i hi => h'.version i (h.version i hi)⟩

theorem Agrees.sameShape (h : s.Agrees t) : s.SameShape t :=
  ⟨h.size, h.contenders, h.site, h.children, h.state, h.expanded,
    fun i => (congrArg (fun n : Node => n.artifact.resolved) (h.core i) :),
    fun i hi => (h.version i).symm ▸ hi⟩

theorem SameShape.update {f : Node → Node} (hs : ∀ n, (f n).site = n.site)
    (hc : ∀ n, (f n).children = n.children) (hst : ∀ n, (f n).state = n.state)
    (he : ∀ n, (f n).expanded = n.expanded)
    (hr : ∀ n, (f n).artifact.resolved = n.artifact.resolved)
    (hv : ∀ n, n.version.isSome = true → (f n).version.isSome = true) (s : Collection) (i : ℕ) :
    s.SameShape (s.update i f) := by
  refine ⟨Graph.size_update _ _ _, rfl, view_update _ hs s i, view_update _ hc s i,
    view_update _ hst s i, view_update _ he s i,
    view_update (fun n => n.artifact.resolved) hr s i, fun j hj => ?_⟩
  rw [node_update]
  split
  · exact hv _ hj
  · exact hj

theorem sameShape_select (s : Collection) (i : ℕ) (v : Version) : s.SameShape (s.select i v) := by
  apply SameShape.update <;> intros <;> rfl

theorem sameShape_constrain (s : Collection) (i : ℕ) (c : Constraint) :
    s.SameShape (s.constrain i c) := by
  apply SameShape.update
  case hv => exact fun _ h => h
  all_goals intro _; rfl

namespace SameShape

variable (h : s.SameShape t)
include h

theorem key (i : ℕ) : (t.node i).key = (s.node i).key := Node.key_of_site (h.site i)

theorem parent (i : ℕ) : (t.node i).parent = (s.node i).parent := Node.parent_of_site (h.site i)

theorem descendants (i : ℕ) : t.graph.descendants i = s.graph.descendants i :=
  descendants_eq h.size h.children i

theorem isFatal (rules : Rules) (i : ℕ) : t.isFatal rules i = s.isFatal rules i :=
  isFatal_of_site (h.site i) rules

theorem sound (hs : s.Sound) : t.Sound where
  tree := hs.tree.of_sites h.size h.site fun i => by
    rw [children_eq, children_eq, h.children]
  root_included := by rw [h.state, hs.root_included]
  fresh i := by rw [h.expanded, h.children]; exact hs.fresh i
  resolved i := by rw [h.expanded, h.resolved]; exact hs.resolved i
  idle i := by rw [h.state, h.expanded]; exact hs.idle i
  contender i := by simp only [h.contenders, h.parent, h.children]; exact hs.contender i
  live i := by simp only [h.state, h.contenders, h.parent]; exact hs.live i
  unique i j := by simp only [h.state, h.key]; exact hs.unique i j
  attached p c := by simp only [h.state, h.children, h.contenders]; exact hs.attached p c
  versioned i hr hi := h.version i (hs.versioned i hr (h.state i ▸ hi))
  settled p c := by
    simp only [h.state, h.children]
    exact fun hp hc hst => h.version c (hs.settled p c hp hc hst)

end SameShape

end Mediation.Collection
