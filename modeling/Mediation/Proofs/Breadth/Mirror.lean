import Mediation.Proofs.Breadth.Roster
import Mediation.Proofs.Breadth.Spawn
import Mediation.Proofs.Collection.Widening

/-! # Nodes and encounters

A node is the place of an encounter if it was attached for it. What its descriptor makes of it,
child by child, is what survives below the encounter.
-/

namespace Mediation

open Collection

namespace Encounter

/-- Whether a node of a graph is the place of an encounter. Of the scope only that of the system
matters. -/
structure At (e : Encounter) (g : Graph) (j : ℕ) : Prop where
  coordinate : (g.node j).artifact.coordinate = e.coordinate
  constraint : (g.node j).declaredConstraint = e.constraint
  exclusions : (g.node j).exclusions = e.exclusions
  trail : (g.node j).artifact.trail = e.path ++ [e.coordinate]
  system : (g.node j).artifact.scope = .system ↔ e.scope = .system
  pinned : ∀ p, (g.node j).parent = some p → g.pinsBelow p = e.pinned

/-- Whether a child below a node is to be the place of an encounter. -/
structure Suits (g : Graph) (p : ℕ) (c : Child) (e : Encounter) : Prop where
  coordinate : c.coordinate = e.coordinate
  constraint : c.constraint = e.constraint
  exclusions : c.exclusions = e.exclusions
  path : (g.node p).artifact.trail = e.path
  system : c.scope = .system ↔ e.scope = .system
  inner : p ≠ Graph.root → c.scope ≠ .system
  pinned : g.pinsBelow p = e.pinned

variable {e : Encounter} {g h : Graph} {i j p : ℕ} {c : Child} {cs : List Child}

theorem At.key (h : e.At g j) : (g.node j).key = e.key := congrArg Coordinate.key h.coordinate

/-- A node stays the place of an encounter as long as its site and what is pinned above it do. -/
theorem At.congr (ha : e.At g j) (hs : (h.node j).site = (g.node j).site)
    (hc : (h.node j).artifact.scope = .system ↔ (g.node j).artifact.scope = .system)
    (hp : ∀ p, (g.node j).parent = some p → h.pinsBelow p = g.pinsBelow p) : e.At h j where
  coordinate := (congrArg Site.coordinate hs :).trans ha.coordinate
  constraint := (congrArg Site.constraint hs :).trans ha.constraint
  exclusions := (congrArg Site.exclusions hs :).trans ha.exclusions
  trail := (congrArg Site.trail hs :).trans ha.trail
  system := hc.trans ha.system
  pinned p hpar := by
    have hpar : (g.node j).parent = some p := (Node.parent_of_site hs).symm.trans hpar
    exact (hp p hpar).trans (ha.pinned p hpar)

theorem Suits.at_spawn (hs : Suits g p c e) (t : g.IsTree) (hp : p < g.size) (hi : i < cs.length)
    (hc : cs[i] = c) : e.At (g.spawn p cs) (g.size + i) := by
  have hnode := Graph.node_spawn_new (g := g) hp hi
  rw [hc] at hnode
  exact {
    coordinate := by
      rw [hnode]
      exact hs.coordinate
    constraint := by
      rw [hnode]
      exact hs.constraint
    exclusions := by
      rw [hnode]
      exact hs.exclusions
    trail := by
      rw [hnode]
      exact congrArg₂ (fun a b => a ++ [b]) hs.path hs.coordinate
    system := by
      rw [hnode]
      exact hs.system
    pinned q hq := by
      rw [hnode] at hq
      obtain rfl : p = q := Option.some.inj hq
      rw [← hs.pinned]
      have hview {k : ℕ} (hk : k ≤ p) {α : Type} (v : Node → α)
          (hv : ∀ (n : Node) ds, v { n with children := ds } = v n) :
          v ((g.spawn p cs).node k) = v (g.node k) :=
        Graph.view_spawn v hv hp (hk.trans_lt hp)
      exact t.pinsBelow_congr (t.spawn hp) (fun k hk => hview hk Node.parent fun _ _ => rfl)
        fun k hk _ => hview hk Node.management fun _ _ => rfl }

end Encounter

theorem forall₂_filterMap {α β γ : Type} {r : β → γ → Prop} {f : α → Option β} {g : α → Option γ}
    (h : ∀ a, Option.Rel r (f a) (g a)) (as : List α) :
    List.Forall₂ r (as.filterMap f) (as.filterMap g) := by
  induction as with
  | nil => exact .nil
  | cons a as ih =>
    have ha := h a
    cases hf : f a with
    | none =>
      cases hg : g a with
      | none =>
        rw [List.filterMap_cons_none hf, List.filterMap_cons_none hg]
        exact ih
      | some c =>
        rw [hf, hg] at ha
        cases ha
    | some b =>
      cases hg : g a with
      | none =>
        rw [hf, hg] at ha
        cases ha
      | some c =>
        rw [hf, hg] at ha
        cases ha with
        | some hr =>
          rw [List.filterMap_cons_some hf, List.filterMap_cons_some hg]
          exact .cons hr ih

namespace Collection

open Encounter

variable {rules : Rules} {s : Collection} {e : Encounter} {d : Descriptor} {x : ℕ}

theorem isTree_opened (t : s.graph.IsTree) : (s.opened x d).graph.IsTree := by
  refine t.of_sites (size_opened d) (fun k => view_opened d Node.site fun _ => rfl) fun k => ?_
  have hc : ((s.opened x d).node k).children = (s.node k).children :=
    view_opened d Node.children fun _ => rfl
  rw [Collection.children_eq, Collection.children_eq, hc]

/-- What is pinned below a node that was opened: what it pins itself, and what is pinned above. -/
theorem pinsBelow_opened (t : s.graph.IsTree) (hx : x < s.graph.size) (hr : x ≠ Graph.root) {p : ℕ}
    (hp : (s.graph.node x).parent = some p) :
    (s.opened x d).graph.pinsBelow x = d.management :: s.graph.pinsBelow p := by
  have hparent (k : ℕ) : ((s.opened x d).graph.node k).parent = (s.graph.node k).parent :=
    view_opened d Node.parent fun _ => rfl
  have hself : ((s.opened x d).graph.node x).management = d.management :=
    congrArg Node.management (node_opened_self d hx)
  have hup : (s.opened x d).graph.pinsBelow p = s.graph.pinsBelow p := by
    refine t.pinsBelow_congr (isTree_opened t) (fun k _ => hparent k) fun k hk _ => ?_
    have hkx : k ≠ x := (hk.trans_lt (t.lt_of_parent hp)).ne
    exact congrArg Node.management (node_opened_of_ne d hkx)
  rw [(isTree_opened t).pinsBelow_of_parent hr ((hparent x).trans hp), hself, hup]

/-- What a dependency becomes below another one, if there is no filter of scopes. -/
theorem childOf?_of_depth {g : Graph} (hd : (g.node x).depth ≠ 0) (hf : rules.filter = none)
    (y : Dependency) : childOf? rules g x y =
      if y.optional || (g.node x).exclusions.any (·.excludes y.coordinate.key) then none
      else
        let z := ((rules.pins.get? y.coordinate.key).or
          ((g.pinsBelow x).findSome? (·.get? y.coordinate.key))).elim y y.pinned
        ((g.node x).artifact.scope.inherit z.scope).map fun scope =>
          ⟨z.coordinate, z.constraint, z.scope, scope, z.optional,
            (g.node x).exclusions ++ z.exclusions⟩ := by
  have hone : 1 ≤ (g.node x).depth := Nat.one_le_iff_ne_zero.mpr hd
  have hskip : y.isSkippedBelow (g.node x) =
      (y.optional || (g.node x).exclusions.any (·.excludes y.coordinate.key)) := by
    simp [Dependency.isSkippedBelow, hone]
  unfold childOf?
  rw [hskip, if_neg hd, hf]
  split
  · rfl
  · dsimp only
    generalize ((rules.pins.get? y.coordinate.key).or
      ((g.pinsBelow x).findSome? (·.get? y.coordinate.key))).elim y y.pinned = z
    rw [Dependency.childBelow, Dependency.scopeBelow, if_neg hd]
    cases (g.node x).artifact.scope.inherit z.scope <;> rfl

/-- Below a dependency that is about to get its children, these suit the survivors. -/
theorem suits_survivors (ha : e.At s.graph x) (t : s.graph.IsTree) (hx : x < s.graph.size)
    (hr : x ≠ Graph.root) (hf : rules.filter = none) (ds : List Dependency) :
    List.Forall₂ (Suits (s.opened x d).graph x)
      (ds.filterMap (childOf? rules (s.opened x d).graph x))
      (ds.filterMap (e.survivor? rules.pins d)) := by
  obtain ⟨p, -, hpar⟩ := t.parent_lt x hx hr
  have hpins : (s.opened x d).graph.pinsBelow x = d.management :: e.pinned := by
    rw [pinsBelow_opened t hx hr hpar, ha.pinned p hpar]
  have hview {α : Type} (v : Node → α) (hv : ∀ n : Node, v { n with
      expanded := true
      artifact := { n.artifact with resolved := true }
      management := d.management } = v n) :
      v ((s.opened x d).graph.node x) = v (s.graph.node x) := view_opened d v hv
  have hdepth : ((s.opened x d).graph.node x).depth ≠ 0 := by
    rw [hview Node.depth fun _ => rfl, t.depth_eq x p hpar]
    exact Nat.succ_ne_zero _
  have hexc : ((s.opened x d).graph.node x).exclusions = e.exclusions :=
    (hview Node.exclusions fun _ => rfl).trans ha.exclusions
  have htrail : ((s.opened x d).graph.node x).artifact.trail = e.path ++ [e.coordinate] :=
    (hview (fun n => n.artifact.trail) fun _ => rfl).trans ha.trail
  refine forall₂_filterMap (fun y => ?_) ds
  rw [childOf?_of_depth hdepth hf, survivor?, hpins, hexc]
  split
  · exact .none
  dsimp only
  rw [pin?]
  generalize (rules.pins.get? y.coordinate.key).or
    ((d.management :: e.pinned).findSome? (·.get? y.coordinate.key)) = pin
  generalize pin.elim y y.pinned = z
  rw [hview (fun n => n.artifact.scope) fun _ => rfl]
  have hrel := Scope.rel_inherit ha.system z.scope
  generalize (s.graph.node x).artifact.scope.inherit z.scope = a at hrel
  generalize e.scope.inherit z.scope = b at hrel
  cases hrel with
  | none => exact .none
  | some hab =>
    exact .some ⟨rfl, rfl, rfl, htrail, iff_of_false hab.1 hab.2, fun _ => hab.1, hpins⟩

theorem suits_direct (root : Coordinate) (v : Version) (pins : Management) (d : Descriptor)
    (hf : rules.filter = none) (ds : List Dependency) :
    List.Forall₂ (Suits ((start root v pins).opened Graph.root d).graph Graph.root)
      (ds.filterMap (childOf? rules ((start root v pins).opened Graph.root d).graph Graph.root))
      (ds.map fun x => ⟨x.coordinate, x.constraint, x.scope, x.exclusions, [root], []⟩) := by
  rw [← List.filterMap_eq_map]
  refine forall₂_filterMap (fun y => ?_) ds
  have hchild : childOf? rules ((start root v pins).opened Graph.root d).graph Graph.root y =
      some ⟨y.coordinate, y.constraint, y.scope, y.scope, y.optional, y.exclusions⟩ := by
    have hnode : ((start root v pins).opened Graph.root d).graph.node Graph.root = _ :=
      node_opened_self d (s := start root v pins) Nat.one_pos
    have hskip : y.isSkippedBelow
        (((start root v pins).opened Graph.root d).graph.node Graph.root) = false := by
      rw [hnode]
      rfl
    have hzero : (((start root v pins).opened Graph.root d).graph.node Graph.root).depth = 0 := by
      rw [hnode]
      rfl
    unfold childOf?
    rw [hskip, if_neg Bool.false_ne_true, if_pos hzero, hf, hnode]
    rfl
  rw [hchild]
  refine .some ⟨rfl, rfl, rfl, ?_, Iff.rfl, absurd rfl, rfl⟩
  exact congrArg (fun n : Node => n.artifact.trail)
    (node_opened_self d (s := start root v pins) Nat.one_pos)

end Collection

end Mediation
