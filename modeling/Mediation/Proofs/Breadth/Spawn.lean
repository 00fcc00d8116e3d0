import Mediation.Proofs.Collection.Sprout

/-! # Spawning

What an expansion does to a graph: the dependencies that are left out are the same whichever of
the others became children before, so the children are attached in one go, with consecutive ids.
-/

namespace Mediation

namespace Graph

variable {g h : Graph} {i j p : ℕ} {c : Child} {cs : List Child}

/-- What is pinned below a node by itself and its ancestors but the root, the nearest first. -/
def pinsBelow (g : Graph) (p : NodeId) : List Management :=
  ((p :: g.ancestors p).takeWhile (· != root)).map fun i => (g.node i).management

theorem pinsBelow_of_ne (hp : p ≠ root) : g.pinsBelow p =
    (g.node p).management ::
      ((g.ancestors p).takeWhile (· != root)).map fun i => (g.node i).management := by
  have hb : (p != root) = true := bne_iff_ne.mpr hp
  simp [pinsBelow, hb]

theorem IsTree.pinsBelow_of_parent (t : g.IsTree) (hi : i ≠ root)
    (hp : (g.node i).parent = some p) :
    g.pinsBelow i = (g.node i).management :: g.pinsBelow p := by
  rw [pinsBelow_of_ne hi, t.ancestors_of_parent hp, pinsBelow]

theorem IsTree.pinsBelow_congr (tg : g.IsTree) (th : h.IsTree)
    (hp : ∀ k ≤ i, (h.node k).parent = (g.node k).parent)
    (hm : ∀ k ≤ i, k = i ∨ (∃ l, (g.node l).parent = some k) →
      (h.node k).management = (g.node k).management) :
    h.pinsBelow i = g.pinsBelow i := by
  induction i using Nat.strong_induction_on with
  | _ i ih =>
    by_cases hi : i = root
    · subst hi
      rfl
    cases hpar : (g.node i).parent with
    | none =>
      have hg : g.ancestors i = [] := by
        unfold ancestors
        cases g.size with
        | zero => rfl
        | succ n => simp only [ancestorsUpTo, parent?_eq, hpar]
      have hh : h.ancestors i = [] := by
        unfold ancestors
        cases h.size with
        | zero => rfl
        | succ n => simp only [ancestorsUpTo, parent?_eq, (hp i le_rfl).trans hpar]
      rw [pinsBelow_of_ne hi, pinsBelow_of_ne hi, hg, hh, hm i le_rfl (.inl rfl)]
      rfl
    | some q =>
      have hlt := tg.lt_of_parent hpar
      rw [tg.pinsBelow_of_parent hi hpar, th.pinsBelow_of_parent hi ((hp i le_rfl).trans hpar),
        hm i le_rfl (.inl rfl), ih q hlt (fun k hk => hp k (hk.trans hlt.le)) fun k hk hc => ?_]
      refine hm k (hk.trans hlt.le) (.inr ?_)
      rcases hc with rfl | hc
      · exact ⟨i, hpar⟩
      · exact hc

def spawn (g : Graph) (p : NodeId) (cs : List Child) : Graph :=
  cs.foldl (fun g c => g.attach p c) g

@[simp] theorem spawn_nil : g.spawn p [] = g := rfl

@[simp] theorem spawn_cons : g.spawn p (c :: cs) = (g.attach p c).spawn p cs := rfl

theorem size_spawn (g : Graph) (p : NodeId) (cs : List Child) :
    (g.spawn p cs).size = g.size + cs.length := by
  induction cs generalizing g with
  | nil => rfl
  | cons c cs ih =>
    rw [spawn_cons, ih, size_attach, List.length_cons]
    omega

theorem IsTree.spawn (t : g.IsTree) (hp : p < g.size) : (g.spawn p cs).IsTree := by
  induction cs generalizing g with
  | nil => exact t
  | cons c cs ih => exact ih (t.attach hp c) (by rw [size_attach]; omega)

theorem node_spawn_self (hp : p < g.size) : (g.spawn p cs).node p =
    { g.node p with children := g.children p ++ List.range' g.size cs.length } := by
  induction cs generalizing g with
  | nil => simp [children_eq]
  | cons c cs ih =>
    have hs : p < (g.attach p c).size := by rw [size_attach]; omega
    rw [spawn_cons, ih hs, children_eq, node_attach_self hp, size_attach]
    simp [List.range'_succ]

theorem node_spawn_of_ne (hp : p < g.size) (hj : j < g.size) (hne : j ≠ p) :
    (g.spawn p cs).node j = g.node j := by
  induction cs generalizing g with
  | nil => rfl
  | cons c cs ih =>
    have hs (k : ℕ) (hk : k < g.size) : k < (g.attach p c).size := by rw [size_attach]; omega
    rw [spawn_cons, ih (hs p hp) (hs j hj), node_attach_of_ne hne hj.ne]

theorem view_spawn {α : Type} (v : Node → α)
    (hv : ∀ (n : Node) ds, v { n with children := ds } = v n) (hp : p < g.size)
    (hj : j < g.size) : v ((g.spawn p cs).node j) = v (g.node j) := by
  by_cases hne : j = p
  · subst hne
    rw [node_spawn_self hp, hv]
  · rw [node_spawn_of_ne hp hj hne]

theorem node_spawn_new (hp : p < g.size) (hi : i < cs.length) : (g.spawn p cs).node (g.size + i) =
    { g.childNode p cs[i] with id := g.size + i } := by
  induction cs generalizing g i with
  | nil => cases hi
  | cons c cs ih =>
    have hs : p < (g.attach p c).size := by rw [size_attach]; omega
    rw [spawn_cons]
    cases i with
    | zero =>
      have hne : g.size ≠ p := hp.ne'
      rw [Nat.add_zero, node_spawn_of_ne hs (by rw [size_attach]; omega) hne, node_attach_size hp]
      rfl
    | succ i =>
      have hlt : i < cs.length := Nat.lt_of_succ_lt_succ hi
      have hsum : g.size + (i + 1) = (g.attach p c).size + i := by rw [size_attach]; omega
      rw [hsum, ih hs hlt]
      unfold childNode
      rw [node_attach_self hp]
      rfl

end Graph

namespace Collection

variable {rules : Rules} {s : Collection} {p : ℕ} {d : Dependency} {c : Child}

/-- The child that a dependency becomes below a node of a graph, if it is not left out. -/
def childOf? (rules : Rules) (g : Graph) (p : NodeId) (d : Dependency) : Option Child :=
  if d.isSkippedBelow (g.node p) then none
  else
    let pin :=
      if (g.node p).depth = 0 then none
      else (rules.pins.get? d.coordinate.key).or
        ((g.pinsBelow p).findSome? (·.get? d.coordinate.key))
    (pin.elim d d.pinned).childBelow (g.node p) rules.filter

theorem pinBelow_eq (k : Key) : s.pinBelow rules p k =
    (rules.pins.get? k).or ((s.graph.pinsBelow p).findSome? (·.get? k)) := by
  rw [pinBelow, Graph.pinsBelow, List.findSome?_map]
  rfl

theorem graph_attach (rules : Rules) (s : Collection) (p : NodeId) (d : Dependency) :
    (s.attach rules p d).2.graph = s.graph.spawn p (childOf? rules s.graph p d).toList := by
  unfold attach childOf?
  simp only [pinBelow_eq, node]
  split
  · rfl
  · generalize (if (s.graph.node p).depth = 0 then none
      else (rules.pins.get? d.coordinate.key).or
        ((s.graph.pinsBelow p).findSome? (·.get? d.coordinate.key))) = pin
    cases ((pin.elim d d.pinned).childBelow (s.graph.node p) rules.filter) with
    | none => cases pin <;> rfl
    | some c =>
      cases pin with
      | none => exact graph_adopt s p c
      | some x => exact graph_adopt (s.emit _) p c

theorem childOf?_attach {g : Graph} (t : g.IsTree) (hp : p < g.size) (c : Child) :
    childOf? rules (g.attach p c) p d = childOf? rules g p d := by
  have hpins : (g.attach p c).pinsBelow p = g.pinsBelow p := by
    have hold {k : ℕ} (hk : k ≤ p) {α : Type} (v : Node → α)
        (hv : ∀ (n : Node) ds, v { n with children := ds } = v n) :
        v ((g.spawn p [c]).node k) = v (g.node k) := Graph.view_spawn v hv hp (hk.trans_lt hp)
    exact t.pinsBelow_congr (t.attach hp c) (fun k hk => hold hk Node.parent fun _ _ => rfl)
      fun k hk _ => hold hk Node.management fun _ _ => rfl
  unfold childOf?
  rw [hpins, Graph.node_attach_self hp]
  rfl

theorem graph_attachAll (t : s.graph.IsTree) (hp : p < s.graph.size) (ds : List Dependency) :
    (s.attachAll rules p ds).2.graph =
      s.graph.spawn p (ds.filterMap (childOf? rules s.graph p)) := by
  induction ds generalizing s with
  | nil => rfl
  | cons d ds ih =>
    have hg := s.graph_attach rules p d
    rw [attachAll]
    dsimp only
    cases hc : childOf? rules s.graph p d with
    | none =>
      rw [hc] at hg
      have hg : (s.attach rules p d).2.graph = s.graph := hg
      rw [List.filterMap_cons_none hc, ih (hg ▸ t) (hg ▸ hp), hg]
    | some c =>
      rw [hc] at hg
      have hg : (s.attach rules p d).2.graph = s.graph.attach p c := hg
      have hlt : p < (s.graph.attach p c).size := by rw [Graph.size_attach]; omega
      have hstable : (childOf? rules (s.graph.attach p c) p) = childOf? rules s.graph p := by
        funext x
        exact childOf?_attach t hp c
      rw [List.filterMap_cons_some hc, ih (hg ▸ t.attach hp c) (hg ▸ hlt), hg, hstable]
      rfl

end Collection

end Mediation
