import Mediation.Proofs.Collection.Sprout
import Mediation.Proofs.Collection.Waiting

/-! # Widened scopes

Only a direct dependency is ever in the scope of the system: such a scope does not propagate, and
direct dependencies keep the scope that they were declared with. So no widening of scopes decides
which of the dependencies further down are left out.
-/

namespace Mediation

namespace Scope

variable {a b c d : Scope}

theorem inherit_ne_system (h : a.inherit d = some c) : c ≠ system := by
  revert h
  cases a <;> cases d <;> cases c <;> decide

theorem rel_inherit (h : a = system ↔ b = system) (d : Scope) :
    Option.Rel (fun s t => s ≠ system ∧ t ≠ system) (a.inherit d) (b.inherit d) := by
  have hone {a : Scope} {s : Scope} (hs : a.inherit d = some s) := inherit_ne_system hs
  cases ha : a.inherit d with
  | none =>
    cases hb : b.inherit d with
    | none => exact .none
    | some t => revert h ha hb; cases a <;> cases b <;> cases d <;> simp [inherit]
  | some s =>
    cases hb : b.inherit d with
    | none => revert h ha hb; cases a <;> cases b <;> cases d <;> simp [inherit]
    | some t => exact .some ⟨hone ha, hone hb⟩

end Scope

namespace Collection

variable {s t u : Collection} {i j x w : ℕ}

/-- Whether scopes of indirect dependencies have changed at most, and none to that of the
system. -/
structure Widens (s t : Collection) : Prop where
  depth : ∀ j : ℕ, (t.node j).depth = (s.node j).depth
  outer : ∀ j : ℕ, (s.node j).depth < 2 → (t.node j).artifact.scope = (s.node j).artifact.scope
  inner : ∀ j : ℕ, 2 ≤ (s.node j).depth → (t.node j).artifact.scope ≠ .system

def IsInner (s : Collection) : Prop :=
  ∀ j : ℕ, 2 ≤ (s.node j).depth → (s.node j).artifact.scope ≠ .system

namespace Widens

theorem system_iff (h : s.Widens t) (hs : s.IsInner) (j : ℕ) :
    (t.node j).artifact.scope = .system ↔ (s.node j).artifact.scope = .system := by
  by_cases hj : (s.node j).depth < 2
  · rw [h.outer j hj]
  · exact iff_of_false (h.inner j (not_lt.mp hj)) (hs j (not_lt.mp hj))

theorem isInner (h : s.Widens t) : t.IsInner := fun j hj => h.inner j (h.depth j ▸ hj)

theorem of_scope (hs : s.IsInner) (hd : ∀ j : ℕ, (t.node j).depth = (s.node j).depth)
    (ht : ∀ j : ℕ, (t.node j).artifact.scope = (s.node j).artifact.scope) : s.Widens t :=
  ⟨hd, fun j _ => ht j, fun j hj => ht j ▸ hs j hj⟩

theorem trans (h : s.Widens t) (h' : t.Widens u) : s.Widens u where
  depth j := (h'.depth j).trans (h.depth j)
  outer j hj := (h'.outer j (h.depth j ▸ hj)).trans (h.outer j hj)
  inner j hj := h'.inner j (h.depth j ▸ hj)

theorem update (hs : s.IsInner) (hi : 2 ≤ (s.node i).depth) {c : Scope} (hc : c ≠ .system) :
    s.Widens (s.update i fun n => { n with artifact := { n.artifact with scope := c } }) := by
  have hnode (j : ℕ) := node_update s i j fun n =>
    { n with artifact := { n.artifact with scope := c } }
  exact {
    depth j := by
      rw [hnode]
      split <;> rfl
    outer j hj := by
      rw [hnode]
      split
      · rename_i h
        rw [h.1] at hi
        omega
      · rfl
    inner j hj := by
      rw [hnode]
      split
      · exact hc
      · exact hs j hj }

theorem rescope (hs : s.IsInner) (hi : 2 ≤ (s.node i).depth) : s.Widens (s.rescope i) := by
  unfold Collection.rescope
  dsimp only
  cases hc : (do
    let parent ← (s.node i).parent
    (s.node parent).artifact.scope.inherit (s.node i).declaredScope) with
  | none => exact .of_scope hs (fun _ => rfl) fun _ => rfl
  | some c =>
    obtain ⟨p, -, hc⟩ := Option.bind_eq_some_iff.mp hc
    exact update hs hi (Scope.inherit_ne_system hc)

theorem foldl_rescope (hs : s.IsInner) {is : List NodeId}
    (hi : ∀ i : ℕ, i ∈ is → 2 ≤ (s.node i).depth) : s.Widens (is.foldl Collection.rescope s) := by
  induction is generalizing s with
  | nil => exact .of_scope hs (fun _ => rfl) fun _ => rfl
  | cons i is ih =>
    have h := rescope hs (hi i (List.mem_cons_self ..))
    refine h.trans (ih h.isInner fun k hk => ?_)
    rw [h.depth]
    exact hi k (List.mem_cons_of_mem _ hk)

end Widens

theorem depth_lt_of_mem_descendants {g : Graph} (t : g.IsTree) (h : j ∈ g.descendants i) :
    (g.node i).depth < (g.node j).depth := by
  induction j using Nat.strong_induction_on with
  | _ j ih =>
    obtain ⟨p, hc, hp⟩ := t.mem_descendants_iff.mp h
    rw [t.depth_eq j p (t.child p j hc).2]
    rcases hp with rfl | hp
    · exact Nat.lt_succ_self _
    · exact Nat.lt_succ_of_lt (ih p (t.lt_of_child hc) hp)

theorem Widens.widenScope (ht : s.graph.IsTree) (hs : s.IsInner) (hw : (s.node w).depth ≠ 0)
    (hx : (s.node w).depth ≤ (s.node x).depth) : s.Widens (s.widenScope w x) := by
  unfold Collection.widenScope
  dsimp only
  split
  · exact .of_scope hs (fun _ => rfl) fun _ => rfl
  split
  · exact .of_scope hs (fun _ => rfl) fun _ => rfl
  rename_i hone
  have hw : 2 ≤ (s.node w).depth := by omega
  have he : s.Widens (s.emit (.scopeWidened (s.node w).artifact (s.node x).artifact.scope)) :=
    .of_scope hs (fun _ => rfl) fun _ => rfl
  have hg : (s.emit (.scopeWidened (s.node w).artifact (s.node x).artifact.scope)).graph =
    s.graph := rfl
  generalize s.emit (.scopeWidened (s.node w).artifact (s.node x).artifact.scope) = u at he hg ⊢
  have hupd := Widens.update he.isInner (he.depth w ▸ hw) (hs x (hw.trans hx))
  have hbelow (f : Node → Node) (hf : ∀ n, (f n).children = n.children) :
      (u.update w f).graph.descendants w = s.graph.descendants w :=
    hg ▸ descendants_eq (Graph.size_update _ _ _) (view_update Node.children hf u w) w
  refine (he.trans hupd).trans (.foldl_rescope hupd.isInner fun i hi => ?_)
  rw [hbelow] at hi
  · rw [hupd.depth, he.depth]
    exact hw.trans (depth_lt_of_mem_descendants ht hi).le
  · intro n
    rfl

theorem Widens.yieldTo (ht : s.graph.IsTree) (hs : s.IsInner) (hw : (s.node w).depth ≠ 0)
    (hx : (s.node w).depth ≤ (s.node x).depth) : s.Widens (s.yieldTo w x) := by
  unfold Collection.yieldTo
  dsimp only
  have hview {α : Type} (v : Node → α)
      (hv : ∀ n : Node, v { n with state := .omittedForConflict, kept := some w } = v n) (j : ℕ) :
      v ((s.update x fun n => { n with state := .omittedForConflict, kept := some w }).node j) =
        v (s.node j) := view_update v hv s x j
  have h : s.Widens (s.update x fun n =>
      { n with state := .omittedForConflict, kept := some w }) :=
    .of_scope hs (hview Node.depth fun _ => rfl) (hview (fun n => n.artifact.scope) fun _ => rfl)
  have htree : (s.update x fun n =>
      { n with state := .omittedForConflict, kept := some w }).graph.IsTree := by
    refine ht.of_sites (Graph.size_update _ _ _) (hview Node.site fun _ => rfl) fun j => ?_
    have hc := hview Node.children (fun _ => rfl) j
    rw [children_eq, children_eq, hc]
  generalize s.update x (fun n =>
    { n with state := .omittedForConflict, kept := some w }) = u at h htree
  refine h.trans ?_
  have he : u.Widens (u.emit (.omittedForConflict (u.node x).artifact (u.node w).artifact)) :=
    .of_scope h.isInner (fun _ => rfl) fun _ => rfl
  refine he.trans (.widenScope htree h.isInner ?_ ?_)
  · rw [node_emit, h.depth]
    exact hw
  · rw [node_emit, node_emit, h.depth, h.depth]
    exact hx

theorem problems_rescope (s : Collection) (i : NodeId) : (s.rescope i).problems = s.problems := by
  unfold rescope
  dsimp only
  cases (do
    let parent ← (s.node i).parent
    (s.node parent).artifact.scope.inherit (s.node i).declaredScope) <;> rfl

theorem problems_widenScope (s : Collection) (w x : NodeId) :
    (s.widenScope w x).problems = s.problems := by
  have hf (ds : List NodeId) (s : Collection) : (ds.foldl rescope s).problems = s.problems := by
    induction ds generalizing s with
    | nil => rfl
    | cons d ds ih => rw [List.foldl_cons, ih, problems_rescope]
  unfold widenScope
  dsimp only
  split
  · rfl
  · split
    · rfl
    · rw [hf]
      rfl

theorem problems_yieldTo (s : Collection) (w x : NodeId) :
    (s.yieldTo w x).problems = s.problems :=
  problems_widenScope _ w x

end Collection

end Mediation
