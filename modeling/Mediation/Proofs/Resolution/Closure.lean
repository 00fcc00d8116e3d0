import Mediation.Proofs.Breadth.Refinement
import Mediation.Proofs.Breadth.Tidy
import Mediation.Proofs.Collection.Tenure
import Mediation.Proofs.Resolution.Lasting

/-! # The closure of a request

If the descriptors are a function of coordinate and version, the children of an included node are
what the descriptor of its final version declares, less what is left out. What is left out depends
on the way from the root to the node as it is in the end, and on the scope that the node had when
it was expanded last.
-/

namespace Mediation

theorem Scope.inherit_eq_none_iff {c d : Scope} :
    c.inherit d = none ↔ c = .system ∨ d ∈ [Scope.provided, .test, .system] := by
  cases c <;> cases d <;> decide

namespace Request

section

variable (q : Request) (desc : Coordinate → Option Version → Descriptor) (g : Graph) (n : NodeId)

/-- What is declared by a node: by the request at the root, else by the release that it stands
for. -/
def declaredAt : Descriptor :=
  if n = Graph.root then q.descriptor
  else desc (g.node n).artifact.coordinate (g.node n).version

/-- The pin for what is declared by a node below the root: that of the request, or of the nearest
node on the way to the root that pins the identity. -/
def pinAt (k : Key) : Option Pin :=
  if n = Graph.root then none
  else (q.management.get? k).or
    (((g.path n).map fun i => (q.declaredAt desc g i).management).findSome? (·.get? k))

def pinnedAt (d : Dependency) : Dependency := (q.pinAt desc g n d.coordinate.key).elim d d.pinned

/-- Whether a dependency that is declared by a node is left out. The nodes on the way from the
root were attached for the dependencies `origin`, and the node was in the scope `c` when it was
expanded. -/
def isLeftOut (origin : NodeId → Dependency) (c : Scope) (d : Dependency) : Bool :=
  (n != Graph.root && d.optional) ||
    ((g.path n).any fun i => (origin i).exclusions.any (·.excludes d.coordinate.key)) ||
    (n != Graph.root && (c == .system ||
      [Scope.provided, .test, .system].contains (q.pinnedAt desc g n d).scope))

/-- The children of a node that was expanded as `above` are attached for the dependencies that are
not left out, in the order of declaration, with the constraints and scopes of the pins for them.
They are as in the graph `born` right after that. -/
structure Closes (origin : NodeId → Dependency) (above : Node) (born : Graph) : Prop where
  nodup : (g.children n).Nodup
  children : (g.children n).map origin = (q.declaredAt desc g n).dependencies.filter
    (!q.isLeftOut desc g n origin above.artifact.scope ·)
  constraint : ∀ j ∈ g.children n,
    (g.node j).declaredConstraint = (q.pinnedAt desc g n (origin j)).constraint ∧
      (born.node j).constraint = (q.pinnedAt desc g n (origin j)).constraint
  scope : ∀ j ∈ g.children n,
    (g.node j).declaredScope = (q.pinnedAt desc g n (origin j)).scope ∧
      (q.pinnedAt desc g n (origin j)).scopeBelow above = some (born.node j).artifact.scope

end

variable {q : Request} {desc : Coordinate → Option Version → Descriptor} {g h : Graph} {n : NodeId}
  {origin origin' : NodeId → Dependency} {above : Node} {born : Graph}

theorem pinnedAt_eq (d : Dependency) : q.pinnedAt desc g n d =
    { d with
      constraint := (q.pinnedAt desc g n d).constraint
      scope := (q.pinnedAt desc g n d).scope } := by
  unfold pinnedAt
  cases q.pinAt desc g n d.coordinate.key <;> rfl

theorem declaredAt_congr (hc : (h.node n).artifact.coordinate = (g.node n).artifact.coordinate)
    (hv : (h.node n).version = (g.node n).version) :
    q.declaredAt desc h n = q.declaredAt desc g n := by
  rw [declaredAt, declaredAt, hc, hv]

theorem pinnedAt_congr (hp : h.path n = g.path n)
    (hd : ∀ i ∈ g.path n, q.declaredAt desc h i = q.declaredAt desc g i) (d : Dependency) :
    q.pinnedAt desc h n d = q.pinnedAt desc g n d := by
  have hpins : (g.path n).map (fun i => (q.declaredAt desc h i).management) =
      (g.path n).map fun i => (q.declaredAt desc g i).management :=
    List.map_congr_left fun i hi => by rw [hd i hi]
  rw [pinnedAt, pinnedAt, pinAt, pinAt, hp, hpins]

theorem isLeftOut_congr (hp : h.path n = g.path n)
    (hd : ∀ i ∈ g.path n, q.declaredAt desc h i = q.declaredAt desc g i)
    (ho : ∀ i ∈ g.path n, origin' i = origin i) (c : Scope) (d : Dependency) :
    q.isLeftOut desc h n origin' c d = q.isLeftOut desc g n origin c d := by
  have hany : ((g.path n).any fun i => (origin' i).exclusions.any (·.excludes d.coordinate.key)) =
      (g.path n).any fun i => (origin i).exclusions.any (·.excludes d.coordinate.key) := by
    rw [Bool.eq_iff_iff, List.any_eq_true, List.any_eq_true]
    exact exists_congr fun i => and_congr_right fun hi => by rw [ho i hi]
  rw [isLeftOut, isLeftOut, pinnedAt_congr hp hd, hp, hany]

/-- What is expected below a node depends on its release, its children and the way to it. -/
theorem Closes.congr (hcl : q.Closes desc g n origin above born) (hp : h.path n = g.path n)
    (hn : q.declaredAt desc h n = q.declaredAt desc g n)
    (hd : ∀ i ∈ g.path n, q.declaredAt desc h i = q.declaredAt desc g i)
    (hc : h.children n = g.children n)
    (ho : ∀ i, i ∈ g.path n ∨ i ∈ g.children n → origin' i = origin i)
    (hs : ∀ j ∈ g.children n, (h.node j).site = (g.node j).site) :
    q.Closes desc h n origin' above born := by
  have hleft := isLeftOut_congr hp hd (fun i hi => ho i (.inl hi)) above.artifact.scope
  have hpinned := pinnedAt_congr hp hd
  have hmap : (g.children n).map origin' = (g.children n).map origin :=
    List.map_congr_left fun j hj => ho j (.inr hj)
  exact {
    nodup := hc ▸ hcl.nodup
    children := by simp only [hc, hmap, hcl.children, hn, hleft]
    constraint j hj := by
      rw [hc] at hj
      rw [Node.declaredConstraint_of_site (hs j hj), ho j (.inr hj), hpinned]
      exact hcl.constraint j hj
    scope j hj := by
      rw [hc] at hj
      rw [Node.declaredScope_of_site (hs j hj), ho j (.inr hj), hpinned]
      exact hcl.scope j hj }

end Request

namespace Graph

structure IsAttached (g : Graph) (origin : NodeId → Dependency) (j : NodeId) : Prop where
  coordinate : (g.node j).artifact.coordinate = (origin j).coordinate
  optional : (g.node j).artifact.optional = (origin j).optional
  exclusions : ∀ p, (g.node j).parent = some p →
    (g.node j).exclusions = (g.node p).exclusions ++ (origin j).exclusions

structure IsGrown (g : Graph) (origin : NodeId → Dependency) : Prop where
  bare : (g.node root).exclusions = []
  attached : ∀ j ≠ root, j < g.size → g.IsAttached origin j

variable {g h : Graph} {origin : NodeId → Dependency} {i : ℕ}

namespace IsGrown

/-- What is excluded at a node is what is excluded on the way to it. -/
theorem any_exclusions (hg : g.IsGrown origin) (t : g.IsTree) (f : Exclusion → Bool)
    (hi : i < g.size) : (g.node i).exclusions.any f =
      (g.path i).any fun j => (origin j).exclusions.any f := by
  induction i using Nat.strong_induction_on with
  | _ i ih =>
    by_cases hr : i = root
    · rw [hr, hg.bare, path_root, List.any_nil, List.any_nil]
    · obtain ⟨p, hlt, hp⟩ := t.parent_lt i hi hr
      rw [(hg.attached i hr hi).exclusions p hp, t.path_of_parent hr hp, List.any_append,
        List.any_cons, ih p hlt (hlt.trans hi), Bool.or_comm]

theorem of_sites (hg : g.IsGrown origin) (hn : h.size = g.size)
    (hs : ∀ j : ℕ, (h.node j).site = (g.node j).site) : h.IsGrown origin := by
  refine ⟨(Node.exclusions_of_site (hs root)).trans hg.bare, fun j hr hj => ?_⟩
  obtain ⟨h₁, h₂, h₃⟩ := hg.attached j hr (hn ▸ hj)
  refine ⟨(congrArg Site.coordinate (hs j) :).trans h₁, (congrArg Site.optional (hs j) :).trans h₂,
    fun p hp => ?_⟩
  rw [Node.exclusions_of_site (hs j), Node.exclusions_of_site (hs p),
    h₃ p ((Node.parent_of_site (hs j)).symm.trans hp)]

end IsGrown

end Graph

namespace Collection

open Request

variable {rules : Rules} {s t : Collection} {q : Request} {d : Dependency} {e : Descriptor}
  {desc : Coordinate → Option Version → Descriptor} {g : Graph} {origin : NodeId → Dependency}
  {i j n x : ℕ}

structure Answers (q : Request) (desc : Coordinate → Option Version → Descriptor) (g : Graph)
    (n : NodeId) (c : Child) (d : Dependency) : Prop where
  coordinate : c.coordinate = d.coordinate
  constraint : c.constraint = (q.pinnedAt desc g n d).constraint
  declaredScope : c.declaredScope = (q.pinnedAt desc g n d).scope
  scope : (q.pinnedAt desc g n d).scopeBelow (g.node n) = some c.scope
  optional : c.optional = d.optional
  exclusions : c.exclusions = (g.node n).exclusions ++ d.exclusions

section Children

variable (ht : g.IsTree) (hg : g.IsGrown origin) (hn : n < g.size) (hf : rules.filter = none)
  (hr : rules.pins = q.management)
  (hm : ∀ i ∈ g.path n, (g.node i).management = (q.declaredAt desc g i).management)
include ht hg hn hf hr hm

theorem rel_childOf? (d : Dependency) : Option.Rel (Answers q desc g n) (childOf? rules g n d)
    (Option.guard (!q.isLeftOut desc g n origin (g.node n).artifact.scope ·) d) := by
  have hdepth : (g.node n).depth = 0 ↔ n = Graph.root := ht.depth_eq_zero_iff hn
  have hpins : g.pinsBelow n = (g.path n).map fun i => (q.declaredAt desc g i).management := by
    rw [Graph.pinsBelow_eq]
    exact List.map_congr_left hm
  have hskip : d.isSkippedBelow (g.node n) = ((n != Graph.root && d.optional) ||
      (g.path n).any fun i => (origin i).exclusions.any (·.excludes d.coordinate.key)) := by
    rw [Dependency.isSkippedBelow, hg.any_exclusions ht _ hn]
    congr 2
    rw [Bool.eq_iff_iff, bne_iff_ne, ne_eq, ← hdepth]
    simp [Nat.one_le_iff_ne_zero]
  have hchild : childOf? rules g n d = if d.isSkippedBelow (g.node n) then none
      else (q.pinnedAt desc g n d).childBelow (g.node n) none := by
    unfold childOf?
    simp only [hdepth, hpins, hr, hf, pinnedAt, pinAt]
  have hscope : (q.pinnedAt desc g n d).scopeBelow (g.node n) = none ↔ n ≠ Graph.root ∧
      ((g.node n).artifact.scope = .system ∨
        (q.pinnedAt desc g n d).scope ∈ [Scope.provided, .test, .system]) := by
    unfold Dependency.scopeBelow
    split
    · rename_i h
      exact iff_of_false (Option.some_ne_none _) fun h' => h'.1 (hdepth.mp h)
    · rename_i h
      rw [Scope.inherit_eq_none_iff, and_iff_right (mt hdepth.mpr h)]
  have hleft : q.isLeftOut desc g n origin (g.node n).artifact.scope d = true ↔
      d.isSkippedBelow (g.node n) = true ∨
        (q.pinnedAt desc g n d).scopeBelow (g.node n) = none := by
    rw [isLeftOut, ← hskip, Bool.or_eq_true, hscope]
    simp
  by_cases hl : q.isLeftOut desc g n origin (g.node n).artifact.scope d = true
  · have hnone : childOf? rules g n d = none := by
      rw [hchild]
      rcases hleft.mp hl with h | h
      · exact if_pos h
      · rw [Dependency.childBelow, h]
        exact ite_self none
    rw [hnone, Option.guard, hl]
    exact .none
  · have hkeep : Option.guard (!q.isLeftOut desc g n origin (g.node n).artifact.scope ·) d =
        some d := by
      simp [Option.guard, hl]
    rw [hleft, not_or] at hl
    obtain ⟨c, hc⟩ := Option.ne_none_iff_exists'.mp hl.2
    rw [hkeep, hchild, if_neg hl.1, Dependency.childBelow, hc]
    exact .some ⟨by rw [pinnedAt_eq], rfl, rfl, hc, by rw [pinnedAt_eq], by rw [pinnedAt_eq]⟩

end Children

section Opened

variable (hs : s.Sound) (hg : s.graph.IsGrown origin) (hn : n < s.graph.size)
  (he : e = q.declaredAt desc s.graph n)
  (hm : ∀ i ∈ s.graph.path n, i ≠ n →
    (s.node i).management = (q.declaredAt desc s.graph i).management)
include hs hg hn he hm

theorem forall₂_opened (hf : rules.filter = none) (hr : rules.pins = q.management) :
    List.Forall₂ (Answers q desc s.graph n)
      (e.dependencies.filterMap (childOf? rules (s.opened n e).graph n))
      (e.dependencies.filter
        (!q.isLeftOut desc s.graph n origin (s.node n).artifact.scope ·)) := by
  have hsize : n < (s.opened n e).graph.size := hn.trans_eq (size_opened e).symm
  have hpath : (s.opened n e).graph.path n = s.graph.path n :=
    hs.tree.path_congr (isTree_opened hs.tree) hn fun k _ => view_opened e Node.parent fun _ => rfl
  have hdecl (i : ℕ) : q.declaredAt desc (s.opened n e).graph i = q.declaredAt desc s.graph i :=
    declaredAt_congr (view_opened e (fun n => n.artifact.coordinate) fun _ => rfl)
      (view_opened e Node.version fun _ => rfl)
  have hpinned := pinnedAt_congr hpath fun i _ => hdecl i
  have hleft := isLeftOut_congr hpath (fun i _ => hdecl i) (fun i _ => rfl (a := origin i))
    (s.node n).artifact.scope
  have hscope : ((s.opened n e).graph.node n).artifact.scope = (s.node n).artifact.scope :=
    view_opened e (fun n => n.artifact.scope) fun _ => rfl
  have hdepth : ((s.opened n e).graph.node n).depth = (s.graph.node n).depth :=
    view_opened e Node.depth fun _ => rfl
  have hrel := rel_childOf? (isTree_opened hs.tree)
    (hg.of_sites (size_opened e) fun _ => view_opened e Node.site fun _ => rfl) hsize hf hr
    fun i hi => by
      rw [hpath] at hi
      rw [hdecl i]
      by_cases hin : i = n
      · subst hin
        exact (congrArg Node.management (node_opened_self e hn)).trans
          (congrArg Descriptor.management he)
      · exact (congrArg Node.management (node_opened_of_ne e hin)).trans (hm i hi hin)
  have hall := forall₂_filterMap hrel e.dependencies
  rw [List.filterMap_eq_filter, hscope] at hall
  simp only [hleft] at hall
  refine hall.imp fun c d ha => ⟨ha.coordinate, ?_, ?_, ?_, ha.optional, ?_⟩
  · rw [← hpinned]
    exact ha.constraint
  · rw [← hpinned]
    exact ha.declaredScope
  · rw [← hpinned, ← ha.scope, Dependency.scopeBelow, Dependency.scopeBelow, hscope, hdepth]
    rfl
  · exact ha.exclusions.trans (congrArg (· ++ _) (view_opened e Node.exclusions fun _ => rfl))

end Opened

theorem declaredAt_of_grows {cs : List Child} (h : Grows x e cs s t) (hn : n < s.graph.size) :
    q.declaredAt desc t.graph n = q.declaredAt desc s.graph n :=
  declaredAt_congr (h.view (fun n => n.artifact.coordinate) (fun _ => rfl) (fun _ _ => rfl) hn)
    (h.view Node.version (fun _ => rfl) (fun _ _ => rfl) hn)

theorem path_of_grows {cs : List Child} (h : Grows x e cs s t) (hn : n < s.graph.size) :
    t.graph.path n = s.graph.path n ∧ ∀ i ∈ s.graph.path n, i < s.graph.size :=
  ⟨h.tree.path_congr h.isTree hn fun _ hk => h.parent hk,
    fun _ hi => (h.tree.le_of_mem_path hn hi).trans_lt hn⟩

section Grows

variable {cs : List Child} {kept : List Dependency} (hgrow : Grows n e cs s t)
  (hall : List.Forall₂ (Answers q desc s.graph n) cs kept)
include hgrow hall

theorem isGrown_extend (hg : s.graph.IsGrown origin) :
    t.graph.IsGrown (extend origin s.graph.size kept) := by
  have hex {j : ℕ} (hj : j < s.graph.size) :
      (t.graph.node j).exclusions = (s.graph.node j).exclusions :=
    hgrow.view Node.exclusions (fun _ => rfl) (fun _ _ => rfl) hj
  refine ⟨(hex hgrow.tree.size_pos).trans hg.bare, fun j hr hj => ?_⟩
  rcases hgrow.old_or_new hj with hjs | ⟨i, hi, rfl⟩
  · obtain ⟨h₁, h₂, h₃⟩ := hg.attached j hr hjs
    rw [← extend_of_lt (f := origin) (l := kept) hjs] at h₁ h₂ h₃
    refine ⟨?_, ?_, fun p hp => ?_⟩
    · rw [← h₁]
      exact hgrow.view (fun n => n.artifact.coordinate) (fun _ => rfl) (fun _ _ => rfl) hjs
    · rw [← h₂]
      exact hgrow.view (fun n => n.artifact.optional) (fun _ => rfl) (fun _ _ => rfl) hjs
    · have hp : (s.graph.node j).parent = some p := (hgrow.parent hjs).symm.trans hp
      rw [hex hjs, hex ((hgrow.tree.lt_of_parent hp).trans hjs), h₃ p hp]
  · have ha := hall.get hi (hall.length_eq ▸ hi)
    have hnew : t.graph.node (s.graph.size + i) = _ := hgrow.node_new hi
    rw [List.get_eq_getElem, List.get_eq_getElem,
      ← extend_add (f := origin) (n := s.graph.size)] at ha
    refine ⟨?_, ?_, fun p hp => ?_⟩
    · rw [hnew]
      exact ha.coordinate
    · rw [hnew]
      exact ha.optional
    · obtain rfl : n = p := Option.some.inj ((hgrow.parent_new hi).symm.trans hp)
      rw [hnew, hex hgrow.lt]
      exact ha.exclusions

theorem closes_grows (he : e = q.declaredAt desc s.graph n)
    (hkept : kept = e.dependencies.filter
      (!q.isLeftOut desc s.graph n origin (s.node n).artifact.scope ·)) :
    q.Closes desc t.graph n (extend origin s.graph.size kept) (s.node n) t.graph := by
  obtain ⟨hpath, hlt⟩ := path_of_grows hgrow hgrow.lt
  have hdecl (i : ℕ) (hi : i ∈ s.graph.path n) :
      q.declaredAt desc t.graph i = q.declaredAt desc s.graph i :=
    declaredAt_of_grows hgrow (hlt i hi)
  have hpinned := pinnedAt_congr hpath hdecl
  have hleft := isLeftOut_congr hpath hdecl
    (fun i hi => extend_of_lt (f := origin) (l := kept) (hlt i hi)) (s.node n).artifact.scope
  have hchildren : t.graph.children n = List.range' s.graph.size cs.length := by
    rw [children_eq]
    exact hgrow.children_self
  have hnew {j : ℕ} (hj : j ∈ t.graph.children n) : ∃ c d, Answers q desc s.graph n c d ∧
      extend origin s.graph.size kept j = d ∧ t.graph.node j =
        { (s.opened n e).graph.childNode n c with id := j } := by
    rw [hchildren, List.mem_range'] at hj
    obtain ⟨i, hi, rfl⟩ := hj
    rw [Nat.one_mul]
    exact ⟨_, _, hall.get hi (hall.length_eq ▸ hi), extend_add _, hgrow.node_new hi⟩
  exact {
    nodup := hchildren ▸ List.nodup_range'
    children := by
      rw [hchildren, hall.length_eq, map_extend, declaredAt_of_grows hgrow hgrow.lt, ← he]
      simp only [hleft]
      exact hkept
    constraint j hj := by
      obtain ⟨c, d, ha, ho, hn⟩ := hnew hj
      rw [ho, hn, hpinned]
      exact ⟨ha.constraint, ha.constraint⟩
    scope j hj := by
      obtain ⟨c, d, ha, ho, hn⟩ := hnew hj
      rw [ho, hn, hpinned]
      exact ⟨ha.declaredScope, ha.scope⟩ }

end Grows

theorem declaredAt_of_retains (h : Retains s t) (hi : (t.node n).state = .included)
    (hx : (t.node n).expanded = true) :
    q.declaredAt desc t.graph n = q.declaredAt desc s.graph n :=
  declaredAt_congr (congrArg Site.coordinate (h.site n)) (h.endures n hi hx).version

theorem closes_of_retains {above : Node} {born : Graph} (h : Retains s t) (hs : s.Sound)
    (ht : t.Sound) (hi : (t.node n).state = .included) (hx : (t.node n).expanded = true)
    (hcl : q.Closes desc s.graph n origin above born) :
    q.Closes desc t.graph n origin above born := by
  have hn := h.endures n hi hx
  have hlt : n < s.graph.size := Graph.lt_size_of_isIncluded (isIncluded_iff.mpr hn.included)
  have hpath : t.graph.path n = s.graph.path n :=
    hs.tree.path_congr ht.tree hlt fun k _ => Node.parent_of_site (h.site k)
  refine hcl.congr hpath (declaredAt_of_retains h hi hx) (fun i hip => ?_) ?_ (fun _ _ => rfl)
    fun j _ => h.site j
  · obtain ⟨-, -, hii, hix⟩ := ht.of_mem_path hi (hpath ▸ hip)
    exact declaredAt_of_retains h hii (hix.elim (fun he => he ▸ hx) id)
  · rw [children_eq, children_eq]
    exact hn.children

theorem closes_of_grows {cs : List Child} {above : Node} {born : Graph}
    {origin' : NodeId → Dependency} (h : Grows x e cs s t) (hn : n < s.graph.size) (hne : n ≠ x)
    (ho : ∀ j < s.graph.size, origin' j = origin j)
    (hcl : q.Closes desc s.graph n origin above born) :
    q.Closes desc t.graph n origin' above born := by
  obtain ⟨hpath, hup⟩ := path_of_grows h hn
  have hdown {j : ℕ} (hj : j ∈ s.graph.children n) : j < s.graph.size := (h.tree.child n j hj).1
  refine hcl.congr hpath (declaredAt_of_grows h hn)
    (fun i hi => declaredAt_of_grows h (hup i hi)) ?_
    (fun i hi => ho i (hi.elim (hup i) hdown))
    fun j hj => h.view Node.site (fun _ => rfl) (fun _ _ => rfl) (hdown hj)
  rw [children_eq, children_eq, h.node_of_ne hn hne]

end Collection

namespace Resolver

open Run Collection

variable {σ : Type} {resolver : Resolver σ} {q : Request} {st : σ}
  {desc : Coordinate → Option Version → Descriptor} {origin : NodeId → Dependency}
  {a b z w : Point σ} {n : ℕ}

/-- Whether the last expansion of a node before the point `z`, from `a` to `b`, was by the
descriptor of its release as it is at `z`, and left what is expected below it. -/
structure Stands (resolver : Resolver σ) (q : Request) (st : σ)
    (desc : Coordinate → Option Version → Descriptor) (origin : NodeId → Dependency) (n : NodeId)
    (a b z : Point σ) : Prop where
  reaches : resolver.Reaches q st a.1 a.2
  last : LastExpands (resolver.session q) n (q.declaredAt desc z.collection.graph n) a b z
  describes : resolver.source.Describes st (z.collection.node n).artifact.coordinate
    (z.collection.node n).version (q.declaredAt desc z.collection.graph n)
  closes : q.Closes desc z.collection.graph n origin (a.collection.node n) b.collection.graph

structure Lineage (resolver : Resolver σ) (q : Request) (st : σ)
    (desc : Coordinate → Option Version → Descriptor) (z : Point σ) (origin : NodeId → Dependency) :
    Prop where
  grown : z.collection.graph.IsGrown origin
  top : q.Closes desc z.collection.graph Graph.root origin
    ((Collection.start q.root q.version q.management).node Graph.root)
    (resolver.start q st).2.collection.graph
  managed : ∀ n ≠ Graph.root, (z.collection.node n).state = .included →
    (z.collection.node n).expanded = true →
      (z.collection.node n).management = (q.declaredAt desc z.collection.graph n).management
  stands : ∀ n ≠ Graph.root, (z.collection.node n).state = .included →
    (z.collection.node n).expanded = true → ∃ a b, resolver.Stands q st desc origin n a b z

theorem lineage_start (hf : (resolver.session q).rules.filter = none) :
    ∃ origin, resolver.Lineage q st desc
      (.level (resolver.start q st).1, (resolver.start q st).2) origin := by
  have hs : (Collection.start q.root q.version q.management).Sound := (steady_start _ _ _).sound
  have hroot : Graph.root < (Collection.start q.root q.version q.management).graph.size :=
    hs.tree.size_pos
  have hone {j : ℕ} (hj : j < (Collection.start q.root q.version q.management).graph.size) :
      j = Graph.root := Nat.lt_one_iff.mp hj
  have hgrow := grows_expand (resolver.session q).rules hs.tree hroot rfl q.descriptor
  have hg : (Collection.start q.root q.version q.management).graph.IsGrown
      fun _ => .plain q.root ⟨none, []⟩ := ⟨rfl, fun j hr hj => absurd (hone hj) hr⟩
  have hd : q.descriptor = q.declaredAt desc
      (Collection.start q.root q.version q.management).graph Graph.root := (if_pos rfl).symm
  have hall := forall₂_opened hs hg hroot hd
    (fun i hi => by rw [Graph.path_root] at hi; cases hi) hf rfl
  have hnone {n : ℕ} (hr : n ≠ Graph.root)
      (hi : ((resolver.start q st).2.collection.node n).state = .included) : False :=
    hr (hone (included_expand hroot q.descriptor hi).1)
  exact ⟨_, isGrown_extend hgrow hall hg, closes_grows hgrow hall hd rfl,
    fun n hr hi => (hnone hr hi).elim, fun n hr hi => (hnone hr hi).elim⟩

theorem Lineage.of_retains (h : resolver.Lineage q st desc z origin)
    (hr : Retains z.collection w.collection) (hz : resolver.Reaches q st z.1 z.2)
    (hs : Advances (resolver.session q) z w) (hn : ∀ x d, ¬ z.IsExpanding x d) :
    resolver.Lineage q st desc w origin := by
  have hsz := (steady_of_reaches hz).sound
  obtain ⟨_, _, hp⟩ := poised_of_reaches (hz.advance hs)
  have hsw := hp.steady.sound
  exact {
    grown := h.grown.of_sites hr.size hr.site
    top := closes_of_retains hr hsz hsw hsw.root_included hp.opened h.top
    managed n hnr hi hx := by
      have he := hr.endures n hi hx
      rw [declaredAt_of_retains hr hi hx, hr.management]
      exact h.managed n hnr he.included he.expanded
    stands n hnr hi hx := by
      have he := hr.endures n hi hx
      obtain ⟨a, b, hst⟩ := h.stands n hnr he.included he.expanded
      have hd : q.declaredAt desc w.collection.graph n = q.declaredAt desc z.collection.graph n :=
        declaredAt_of_retains hr hi hx
      refine ⟨a, b, hst.reaches, ?_, ?_, closes_of_retains hr hsz hsw hi hx hst.closes⟩
      · rw [hd]
        exact hst.last.advance hs (hn n)
      · have hc : (w.collection.node n).artifact.coordinate =
            (z.collection.node n).artifact.coordinate := congrArg Site.coordinate (hr.site n)
        rw [hd, hc, he.version]
        exact hst.describes }

theorem Lineage.expand (h : resolver.Lineage q st desc z origin)
    (hdesc : ∀ c v d, resolver.source.Describes st c v d → d = desc c v)
    (hf : (resolver.session q).rules.filter = none) (hz : resolver.Reaches q st z.1 z.2)
    (hs : Advances (resolver.session q) z w) {x : ℕ} {e : Descriptor} (hx : z.IsExpanding x e)
    (hd : IsDescribed (resolver.session q) st z.collection x (.ok e))
    (hw : w.collection = (z.collection.expand (resolver.session q).rules x e).2) :
    ∃ origin', resolver.Lineage q st desc w origin' := by
  have hsz := (steady_of_reaches hz).sound
  have hgrow := grows_expand (resolver.session q).rules hsz.tree hd.lt_size
    (hsz.fresh x hd.expanded) e
  rw [← hw] at hgrow
  have htold : resolver.source.Describes st (z.collection.node x).artifact.coordinate
      (z.collection.node x).version e := hd.describes e rfl
  have he : e = q.declaredAt desc z.collection.graph x :=
    (hdesc _ _ _ htold).trans (if_neg hd.ne_root).symm
  have hall := forall₂_opened hsz h.grown hd.lt_size he (fun i hi hix => by
    obtain ⟨hir, -, hii, hiz⟩ := hsz.of_mem_path hx.2 hi
    exact h.managed i hir hii (hiz.resolve_left hix)) hf rfl
  generalize hkept : e.dependencies.filter _ = kept at hall
  generalize e.dependencies.filterMap _ = cs at hgrow hall
  have hself : q.declaredAt desc w.collection.graph x = e :=
    (declaredAt_of_grows hgrow hd.lt_size).trans he.symm
  have hold {n : ℕ} (hi : (w.collection.node n).state = .included)
      (hxn : (w.collection.node n).expanded = true) (hn : n ≠ x) :
      n < z.collection.graph.size ∧ (z.collection.node n).state = .included ∧
        (z.collection.node n).expanded = true := by
    rw [hw] at hi
    obtain ⟨hlt, hi⟩ := included_expand hd.lt_size e hi
    exact ⟨hlt, hi, (hgrow.of_expanded hxn).resolve_left hn⟩
  refine ⟨extend origin z.collection.graph.size kept, isGrown_extend hgrow hall h.grown,
    closes_of_grows hgrow hsz.tree.size_pos hd.ne_root.symm (fun j hj => extend_of_lt hj) h.top,
    fun n hnr hi hxn => ?_, fun n hnr hi hxn => ?_⟩
  · by_cases hn : n = x
    · rw [hn, hself]
      exact hgrow.management_self
    · obtain ⟨hlt, hi, hxn⟩ := hold hi hxn hn
      rw [declaredAt_of_grows hgrow hlt, hgrow.node_of_ne hlt hn]
      exact h.managed n hnr hi hxn
  · by_cases hn : n = x
    · subst hn
      refine ⟨z, w, hz, ⟨hself ▸ hx, hs, .refl⟩, ?_, closes_grows hgrow hall he hkept.symm⟩
      rw [hself,
        hgrow.view (fun n => n.artifact.coordinate) (fun _ => rfl) (fun _ _ => rfl) hgrow.lt,
        hgrow.view Node.version (fun _ => rfl) (fun _ _ => rfl) hgrow.lt]
      exact htold
    · obtain ⟨hlt, hi, hxn⟩ := hold hi hxn hn
      obtain ⟨a, b, hst⟩ := h.stands n hnr hi hxn
      have hdecl : q.declaredAt desc w.collection.graph n =
          q.declaredAt desc z.collection.graph n := declaredAt_of_grows hgrow hlt
      refine ⟨a, b, hst.reaches, ?_, ?_,
        closes_of_grows hgrow hlt hn (fun j hj => extend_of_lt hj) hst.closes⟩
      · rw [hdecl]
        exact hst.last.advance hs fun d hnd => hn (hnd.unique hx).1
      · rw [hdecl, hgrow.node_of_ne hlt hn]
        exact hst.describes

theorem exists_lineage (hdesc : ∀ c v d, resolver.source.Describes st c v d → d = desc c v)
    (hf : (resolver.session q).rules.filter = none) {stage : Stage} {r : Run σ}
    (h : resolver.Reaches q st stage r) :
    ∃ origin, resolver.Lineage q st desc (stage, r) origin := by
  refine reaches_induct (P := fun z => ∃ origin, resolver.Lineage q st desc z origin)
    (lineage_start hf) (fun z w hz hs hzw ⟨origin, hl⟩ => ?_) h
  have keeps (hn : ∀ x d, ¬ z.IsExpanding x d) (hr : Retains z.collection w.collection) :
      ∃ origin, resolver.Lineage q st desc w origin := ⟨origin, hl.of_retains hr hz hs hn⟩
  cases hzw with
  | rests hc hn => exact keeps hn (hc ▸ .of_agrees (.refl _))
  | clears hc hn => exact keeps hn (hc ▸ .of_agrees (agrees_clear _))
  | moves hm hn => exact keeps hn (hm.retains (steady_of_reaches hz))
  | expands hx hd hc => exact hl.expand hdesc hf hz hs hx hd hc

/-- Where no scope is filtered out, the children of the root and of every included node are those
that are declared and not left out. -/
theorem children_are_closure {fuel : ℕ} {res : Resolution}
    (hdesc : ∀ c v d, resolver.source.Describes st c v d → d = desc c v)
    (hf : (resolver.session q).rules.filter = none)
    (h : (resolver.resolve fuel q st).1 = .ok (some res)) :
    ∃ origin : NodeId → Dependency,
      (∀ j ≠ Graph.root, j < res.graph.size → res.graph.IsAttached origin j) ∧
      q.Closes desc res.graph Graph.root origin
        ((Collection.start q.root q.version q.management).node Graph.root)
        (resolver.start q st).2.collection.graph ∧
      ∀ n ≠ Graph.root, res.graph.isIncluded n = true →
        ∃ a b, resolver.Stands q st desc origin n a b
          (.level [], (resolver.resolve fuel q st).2) := by
  obtain ⟨-, -, hg⟩ := poised_of_resolve h
  obtain ⟨-, -, hr⟩ := reaches_of_resolve h
  obtain ⟨origin, hl⟩ := exists_lineage hdesc hf hr
  refine ⟨origin, hg ▸ hl.grown.attached, hg ▸ hl.top, fun n hnr hi => ?_⟩
  rw [hg, isIncluded_iff] at hi
  exact hl.stands n hnr hi (expanded_of_resolve h hi)

def known (releases : List ((Coordinate × Version) × Descriptor)) (c : Coordinate)
    (v : Option Version) : Descriptor :=
  (releases.find? fun r => r.1.1 == c && v == some r.1.2).elim ⟨[], .empty⟩ (·.2)

theorem eq_known {releases : List ((Coordinate × Version) × Descriptor)} {c : Coordinate}
    {v : Option Version} {d : Descriptor} (h : (knowing releases).Describes () c v d) :
    d = known releases c v := by
  obtain ⟨_, _, a, rfl, rfl, h⟩ := h
  exact (Except.ok.inj h).symm

/-- One of the two dependencies of the second node is optional. -/
theorem children_are_closure_of_crossing :
    ∃ res, (crossingResolver.resolve 5 clashing ()).1 = .ok (some res) ∧
      res.graph.isIncluded 2 = true ∧
      (clashing.declaredAt (known crossing) res.graph 2).dependencies.length = 2 ∧
      (res.graph.children 2).length = 1 ∧
      ∃ origin a b, crossingResolver.Stands clashing () (known crossing) origin 2 a b
        (.level [], (crossingResolver.resolve 5 clashing ()).2) := by
  obtain ⟨res, h⟩ := finishes_iff.mp
    (show crossingResolver.finishes 5 clashing () = true by decide +kernel)
  obtain ⟨hres, -, -⟩ := reaches_of_resolve h
  have hi : res.graph.isIncluded 2 = true := by
    rw [hres]
    decide +kernel
  have hlen : (clashing.declaredAt (known crossing) res.graph 2).dependencies.length = 2 ∧
      (res.graph.children 2).length = 1 := by
    rw [hres]
    decide +kernel
  obtain ⟨origin, -, -, hc⟩ := children_are_closure (fun _ _ _ => eq_known) rfl h
  exact ⟨res, h, hi, hlen.1, hlen.2, origin, hc 2 (by decide) hi⟩

end Resolver

end Mediation
