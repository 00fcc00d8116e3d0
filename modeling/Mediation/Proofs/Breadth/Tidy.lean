import Mediation.Proofs.Breadth.Mirror
import Mediation.Proofs.Collection.Facing
import Mediation.Proofs.Graph.Level

/-! # Tidy collections

As long as nothing fails and no winner gives way, all nodes hang where they were attached, in the
order of their parents, and every loser is younger than the winner of its identity. A newcomer
that gets its place keeps it so, and so does the expansion of the youngest parent.
-/

namespace Mediation.Collection

variable {rules : Rules} {s t : Collection} {enc : ℕ → Encounter} {es : List Encounter}
  {d : Descriptor} {v : Version} {st : NodeState} {i j w x : ℕ}

/-- A collection in which every node is the place of an encounter, and nothing was lost. -/
structure Tidy (s : Collection) (enc : ℕ → Encounter) : Prop where
  mirrors : ∀ j : ℕ, j ≠ Graph.root → j < s.graph.size → (enc j).At s.graph j
  hangs : ∀ j : ℕ, j ≠ Graph.root → j < s.graph.size → ∃ p : ℕ, (s.node j).parent = some p ∧
    (s.node p).state = .included ∧ j ∈ (s.node p).children
  inner : s.IsInner
  cycle : ∀ j : ℕ, j ≠ Graph.root → j < s.graph.size →
    ((s.node j).state = .omittedForCycle ↔ (enc j).coordinate ∈ (enc j).path)
  unfailed : ∀ j : ℕ, j < s.graph.size → (s.node j).state ≠ .failed
  beaten : ∀ j : ℕ, (s.node j).state = .omittedForConflict →
    ∃ w < j, w ≠ Graph.root ∧ (s.node w).state = .included ∧ (s.node w).key = (s.node j).key
  version : ∀ j : ℕ, j ≠ Graph.root → (s.node j).state = .included →
    (s.node j).version = (enc j).version
  orderly : s.graph.IsOrderly
  requeue : s.requeue = []
  problems : s.problems = []

/-- A newcomer gets a version and a place, and nothing else changes but scopes. -/
structure Seats (x : ℕ) (v : Version) (st : NodeState) (s t : Collection) : Prop where
  size : t.graph.size = s.graph.size
  requeue : t.requeue = s.requeue
  problems : t.problems = s.problems
  core : ∀ j : ℕ, (t.node j).core = (if j = x then
    { s.node x with state := st, artifact := (s.node x).artifact.select v } else s.node j).core
  widens : s.Widens t

namespace Seats

theorem view (h : Seats x v st s t) {α : Type} (f : Node → α) (hc : ∀ n : Node, f n.core = f n)
    (hf : ∀ n : Node, f { n with state := st, artifact := n.artifact.select v } = f n) (j : ℕ) :
    f (t.node j) = f (s.node j) := by
  rw [← hc, h.core, hc]
  split
  · rename_i hj
    rw [hf, hj]
  · rfl

theorem state (h : Seats x v st s t) (j : ℕ) :
    (t.node j).state = if j = x then st else (s.node j).state := by
  rw [Node.state_of_core (h.core j)]
  split <;> rfl

theorem site (h : Seats x v st s t) (j : ℕ) : (t.node j).site = (s.node j).site :=
  h.view Node.site (fun _ => rfl) (fun _ => rfl) j

theorem parent (h : Seats x v st s t) (j : ℕ) : (t.node j).parent = (s.node j).parent :=
  Node.parent_of_site (h.site j)

theorem children (h : Seats x v st s t) (j : ℕ) : (t.node j).children = (s.node j).children :=
  h.view Node.children (fun _ => rfl) (fun _ => rfl) j

theorem accept (hs : s.Sound) (hp : (s.node x).state = .pending) (hi : s.IsInner) (v : Version) :
    Seats x v .included s ((s.select x v).accept x) := by
  have hx := hs.lt_size_of_contender (Steady.pending_contender hs hp)
  have hxs : x < (s.select x v).graph.size := hx.trans_eq (size_select v).symm
  have hcore (j : ℕ) : (((s.select x v).accept x).node j).core = (if j = x then
      { s.node x with state := .included, artifact := (s.node x).artifact.select v }
      else s.node j).core := by
    rw [node_accept]
    by_cases hj : j = x
    · subst hj
      rw [if_pos ⟨rfl, hxs⟩, if_pos rfl, select, node_update_self hx]
      rfl
    · have hj' : ¬ (x = j ∧ x < (s.select x v).graph.size) := fun h => hj h.1.symm
      rw [if_neg hj', if_neg hj, select, node_update_of_ne (Ne.symm hj)]
  have hsel : s.Widens (s.select x v) :=
    .of_scope hi (fun _ => view_select Node.depth v fun _ => rfl)
      fun _ => view_select (fun n => n.artifact.scope) v fun _ => rfl
  refine ⟨size_accept.trans (size_select v), rfl, rfl, hcore, hsel.trans ?_⟩
  exact .of_scope hsel.isInner (fun _ => view_accept Node.depth fun _ => rfl)
    fun _ => view_accept (fun n => n.artifact.scope) fun _ => rfl

theorem yieldTo (hs : s.Sound) (hp : (s.node x).state = .pending) (hi : s.IsInner) (v : Version)
    (hw : (s.node w).depth ≠ 0) (hwx : (s.node w).depth ≤ (s.node x).depth) :
    Seats x v .omittedForConflict s ((s.select x v).yieldTo w x) := by
  have hsh := sameShape_select s x v
  have hsv := hsh.sound hs
  have hpv : ((s.select x v).node x).state = .pending := (hsh.state x).trans hp
  have hx := Steady.pending_contender hsv hpv
  have hxs := hs.lt_size_of_contender (Steady.pending_contender hs hp)
  have hleaf : ((s.select x v).node x).children = [] := hsv.fresh x (hsv.idle x hpv)
  have hag := agrees_yieldTo (w := w) hleaf
  have hcore (j : ℕ) : (((s.select x v).yieldTo w x).node j).core = (if j = x then
      { s.node x with state := .omittedForConflict, artifact := (s.node x).artifact.select v }
      else s.node j).core := by
    by_cases hj : j = x
    · subst hj
      rw [core_yieldTo hsv hpv, if_pos rfl, select, node_update_self hxs]
    · have hd : j ∉ (s.select x v).graph.descendants x := by
        rw [Graph.descendants_eq_nil ((children_eq _ _).trans hleaf)]
        exact List.not_mem_nil
      rw [hag.core, hsv.topple_of_not_mem hx hj hd, if_neg hj, select,
        node_update_of_ne (Ne.symm hj)]
  have hsel : s.Widens (s.select x v) :=
    .of_scope hi (fun _ => view_select Node.depth v fun _ => rfl)
      fun _ => view_select (fun n => n.artifact.scope) v fun _ => rfl
  have hwidens : (s.select x v).Widens ((s.select x v).yieldTo w x) := by
    refine .yieldTo hsv.tree hsel.isInner ?_ ?_
    · rw [hsel.depth]
      exact hw
    · rw [hsel.depth, hsel.depth]
      exact hwx
  exact {
    size := (hag.size.trans size_topple).trans (size_select v)
    requeue := requeue_yieldTo
    problems := problems_yieldTo _ _ _
    core := hcore
    widens := hsel.trans hwidens }

end Seats

namespace Tidy

variable (h : s.Tidy enc)
include h

theorem seat (hs : s.Sound) (hp : (s.node x).state = .pending) (ht : Seats x v st s t)
    (hst : st = .included ∧ (enc x).version = some v ∨ st = .omittedForConflict ∧
      ∃ w < x, w ≠ Graph.root ∧ (s.node w).state = .included ∧
        (s.node w).key = (s.node x).key) : t.Tidy enc := by
  have hkey (j : ℕ) : (t.node j).key = (s.node j).key := Node.key_of_site (ht.site j)
  have hkeep {j : ℕ} (hj : (s.node j).state = .included) : (t.node j).state = .included := by
    rw [ht.state, if_neg fun hjx => by rw [hjx, hp] at hj; cases hj]
    exact hj
  have htree : t.graph.IsTree := hs.tree.of_sites ht.size ht.site fun j => by
    rw [children_eq, children_eq, ht.children]
  have hpins (p : ℕ) : t.graph.pinsBelow p = s.graph.pinsBelow p :=
    hs.tree.pinsBelow_congr htree (fun k _ => ht.parent k) fun k _ _ =>
      ht.view Node.management (fun _ => rfl) (fun _ => rfl) k
  have hnew : st ≠ .omittedForCycle ∧ st ≠ .failed := by
    rcases hst with ⟨rfl, -⟩ | ⟨rfl, -⟩ <;> decide
  exact {
    mirrors j hr hj := by
      rw [ht.size] at hj
      exact (h.mirrors j hr hj).congr (ht.site j) (ht.widens.system_iff h.inner j)
        fun p _ => hpins p
    hangs j hr hj := by
      rw [ht.size] at hj
      obtain ⟨p, hpar, hpi, hc⟩ := h.hangs j hr hj
      exact ⟨p, (ht.parent j).trans hpar, hkeep hpi, (ht.children p).symm ▸ hc⟩
    inner := ht.widens.isInner
    cycle j hr hj := by
      rw [ht.size] at hj
      rw [← h.cycle j hr hj, ht.state]
      split
      · rename_i hjx
        rw [hjx, hp]
        exact iff_of_false hnew.1 nofun
      · rfl
    unfailed j hj := by
      rw [ht.size] at hj
      rw [ht.state]
      split
      · exact hnew.2
      · exact h.unfailed j hj
    beaten j hj := by
      have hbeaten : ∃ w < j, w ≠ Graph.root ∧ (s.node w).state = .included ∧
          (s.node w).key = (s.node j).key := by
        rw [ht.state] at hj
        split at hj
        · rename_i hjx
          rcases hst with ⟨hsti, -⟩ | ⟨-, hw⟩
          · rw [hsti] at hj
            cases hj
          · exact hjx ▸ hw
        · exact h.beaten j hj
      obtain ⟨w, hwj, hwr, hwi, hwk⟩ := hbeaten
      exact ⟨w, hwj, hwr, hkeep hwi, (hkey w).trans (hwk.trans (hkey j).symm)⟩
    version j hr hj := by
      by_cases hjx : j = x
      · subst hjx
        have hsti : st = .included := by
          rw [ht.state, if_pos rfl] at hj
          exact hj
        obtain ⟨-, hv⟩ := hst.resolve_right fun hc => by rw [hsti] at hc; cases hc.1
        have hver : (t.node j).core.version = some v := by
          rw [ht.core, if_pos rfl]
          rfl
        exact hver.trans hv.symm
      · rw [ht.state, if_neg hjx] at hj
        have hver : (t.node j).core.version = (s.node j).core.version := by
          rw [ht.core, if_neg hjx]
        exact hver.trans (h.version j hr hj)
    orderly := {
      parents i j p q hi hj :=
        h.orderly.parents i j p q ((ht.parent i).symm.trans hi) ((ht.parent j).symm.trans hj)
      children p := by
        have hc := h.orderly.children p
        rw [children_eq] at hc ⊢
        rw [ht.children]
        exact hc }
    requeue := ht.requeue.trans h.requeue
    problems := ht.problems.trans h.problems }

end Tidy

def extend {α : Type} (f : ℕ → α) (n : ℕ) (l : List α) (j : ℕ) : α :=
  if j < n then f j else (l[j - n]?).getD (f j)

section Extend

variable {α : Type} {f : ℕ → α} {n : ℕ} {l : List α}

theorem extend_of_lt (hj : j < n) : extend f n l j = f j := if_pos hj

theorem extend_add (hi : i < l.length) : extend f n l (n + i) = l[i] := by
  have hn : ¬ n + i < n := by omega
  rw [extend, if_neg hn, Nat.add_sub_cancel_left, List.getElem?_eq_getElem hi]
  rfl

theorem map_extend (f : ℕ → α) (n : ℕ) (l : List α) :
    (List.range' n l.length).map (extend f n l) = l := by
  refine List.ext_getElem (by simp) fun i hi _ => ?_
  have hi : i < l.length := by simpa using hi
  simp [extend_add hi]

end Extend

theorem graph_expand (rules : Rules) (t : s.graph.IsTree) (hx : x < s.graph.size) (d : Descriptor) :
    (s.expand rules x d).2.graph = (s.opened x d).graph.spawn x
      (d.dependencies.filterMap (childOf? rules (s.opened x d).graph x)) :=
  graph_attachAll (s := (s.opened x d).emit (.expanding ((s.opened x d).node x).artifact))
    (isTree_opened t) (hx.trans_eq (size_opened d).symm) d.dependencies

/-- A leaf gets its children, with the ids that follow those of all other nodes. -/
structure Grows (x : ℕ) (d : Descriptor) (cs : List Child) (s t : Collection) : Prop where
  tree : s.graph.IsTree
  lt : x < s.graph.size
  leaf : (s.node x).children = []
  graph : t.graph = (s.opened x d).graph.spawn x cs
  requeue : t.requeue = s.requeue
  problems : t.problems = s.problems

theorem grows_expand (rules : Rules) (t : s.graph.IsTree) (hx : x < s.graph.size)
    (hleaf : (s.node x).children = []) (d : Descriptor) :
    Grows x d (d.dependencies.filterMap (childOf? rules (s.opened x d).graph x)) s
      (s.expand rules x d).2 :=
  ⟨t, hx, hleaf, graph_expand rules t hx d, requeue_expand hx d, problems_expand hx d⟩

namespace Grows

variable {cs : List Child} {p : ℕ} (h : Grows x d cs s t)
include h

theorem lt_opened : x < (s.opened x d).graph.size := h.lt.trans_eq (size_opened d).symm

theorem size : t.graph.size = s.graph.size + cs.length := by
  rw [h.graph, Graph.size_spawn, size_opened]

theorem isTree : t.graph.IsTree := h.graph ▸ (isTree_opened h.tree).spawn h.lt_opened

/-- A node is an old one, or one of the children in their order. -/
theorem old_or_new (hj : j < t.graph.size) :
    j < s.graph.size ∨ ∃ i, ∃ _ : i < cs.length, j = s.graph.size + i := by
  rw [h.size] at hj
  by_cases hjs : j < s.graph.size
  · exact .inl hjs
  · exact .inr ⟨j - s.graph.size, by omega, by omega⟩

theorem view {α : Type} (f : Node → α)
    (hf : ∀ n : Node, f { n with
      expanded := true
      artifact := { n.artifact with resolved := true }
      management := d.management } = f n)
    (hc : ∀ (n : Node) cs, f { n with children := cs } = f n) (hj : j < s.graph.size) :
    f (t.node j) = f (s.node j) := by
  have hjo : j < (s.opened x d).graph.size := hj.trans_eq (size_opened d).symm
  rw [node, h.graph, Graph.view_spawn f hc h.lt_opened hjo]
  exact view_opened d f hf

theorem state (hj : j < s.graph.size) : (t.node j).state = (s.node j).state :=
  h.view Node.state (fun _ => rfl) (fun _ _ => rfl) hj

theorem parent (hj : j < s.graph.size) : (t.node j).parent = (s.node j).parent :=
  h.view Node.parent (fun _ => rfl) (fun _ _ => rfl) hj

theorem key (hj : j < s.graph.size) : (t.node j).key = (s.node j).key :=
  h.view Node.key (fun _ => rfl) (fun _ _ => rfl) hj

theorem node_new (hi : i < cs.length) : t.node (s.graph.size + i) =
    { (s.opened x d).graph.childNode x cs[i] with id := s.graph.size + i } := by
  rw [node, h.graph, ← size_opened (s := s) (i := x) d]
  exact Graph.node_spawn_new h.lt_opened hi

theorem parent_new (hi : i < cs.length) : (t.node (s.graph.size + i)).parent = some x := by
  rw [h.node_new hi]
  rfl

theorem state_new (hi : i < cs.length)
    {e : Encounter} (he : Encounter.Suits (s.opened x d).graph x cs[i] e) :
    (t.node (s.graph.size + i)).state =
      if e.coordinate ∈ e.path then .omittedForCycle else .pending := by
  rw [h.node_new hi]
  change (if ((s.opened x d).graph.node x).artifact.trail.contains cs[i].coordinate then
    NodeState.omittedForCycle else .pending) = _
  rw [he.path, he.coordinate]
  simp

theorem node_of_ne (hj : j < s.graph.size) (hne : j ≠ x) : t.node j = s.node j := by
  rw [node, h.graph, Graph.node_spawn_of_ne h.lt_opened (hj.trans_eq (size_opened d).symm) hne]
  exact node_opened_of_ne d hne

theorem children_self :
    (t.node x).children = List.range' s.graph.size cs.length := by
  have hc : ((s.opened x d).graph.node x).children = (s.node x).children :=
    view_opened d Node.children fun _ => rfl
  rw [node, h.graph, Graph.node_spawn_self h.lt_opened, Graph.children_eq, size_opened]
  simp only [hc, h.leaf, List.nil_append]

theorem management_self : (t.node x).management = d.management := by
  rw [node, h.graph, Graph.node_spawn_self h.lt_opened]
  exact congrArg Node.management (node_opened_self d h.lt)

theorem of_expanded (hj : (t.node j).expanded = true) : j = x ∨ (s.node j).expanded = true := by
  have hlt : j < t.graph.size := by
    by_contra hn
    rw [node_of_size_le (not_lt.mp hn)] at hj
    cases hj
  rcases h.old_or_new hlt with hjs | ⟨i, hi, rfl⟩
  · by_cases hjx : j = x
    · exact .inl hjx
    · exact .inr (h.node_of_ne hjs hjx ▸ hj)
  · rw [h.node_new hi] at hj
    cases hj

/-- What is pinned below an old node stays, unless it hangs below the leaf. -/
theorem pinsBelow (hj : p < s.graph.size)
    (hne : ∀ k, k = p ∨ (∃ l, (s.node l).parent = some k) → k ≠ x) :
    t.graph.pinsBelow p = s.graph.pinsBelow p :=
  h.tree.pinsBelow_congr h.isTree (fun _ hk => h.parent (hk.trans_lt hj)) fun _ hk hc =>
    congrArg Node.management (h.node_of_ne (hk.trans_lt hj) (hne _ hc))

/-- The old nodes hang as before, and the new ones from the leaf on; the parents of old ones come
before it. -/
theorem isOrderly (ho : s.graph.IsOrderly)
    (hlast : ∀ j p : ℕ, (s.node j).parent = some p → p ≤ x) : t.graph.IsOrderly := by
  have hold {j p : ℕ} (hj : j < s.graph.size) (hp : (t.node j).parent = some p) :
      (s.node j).parent = some p := (h.parent hj).symm.trans hp
  have hnew {i p : ℕ} (hi : i < cs.length)
      (hp : (t.node (s.graph.size + i)).parent = some p) : p = x :=
    Option.some.inj (hp.symm.trans (h.parent_new hi))
  exact {
    parents i j p q hpi hpj hij := by
      rcases h.old_or_new (Graph.lt_size_of_parent hpj) with hjs | ⟨l, hl, rfl⟩
      · exact ho.parents i j p q (hold (hij.trans_lt hjs) hpi) (hold hjs hpj) hij
      · obtain rfl : q = x := hnew hl hpj
        rcases h.old_or_new (Graph.lt_size_of_parent hpi) with his | ⟨m, hm, rfl⟩
        · exact hlast i p (hold his hpi)
        · exact (hnew hm hpi).le
    children p := by
      rw [children_eq]
      by_cases hpt : p < t.graph.size
      · rcases h.old_or_new hpt with hps | ⟨i, hi, rfl⟩
        · by_cases hpx : p = x
          · rw [hpx, h.children_self]
            exact List.pairwise_lt_range'
          · rw [h.node_of_ne hps hpx, ← children_eq]
            exact ho.children p
        · rw [h.node_new hi]
          exact .nil
      · rw [node_of_size_le (not_lt.mp hpt)]
        exact .nil }

end Grows

theorem Tidy.parent_ne_leaf (h : s.Tidy enc) (hs : s.Sound) (hx : (s.node x).children = [])
    {p : ℕ} (hp : (s.node j).parent = some p) : p ≠ x := by
  rintro rfl
  have hjr : j ≠ Graph.root := by
    rintro rfl
    exact absurd (hp.symm.trans hs.tree.parent_root) (Option.some_ne_none p)
  obtain ⟨q, hq, -, hc⟩ := h.hangs j hjr (Graph.lt_size_of_parent hp)
  obtain rfl : p = q := Option.some.inj (hp.symm.trans hq)
  rw [hx] at hc
  cases hc

section Expand

variable {cs : List Child} (h : s.Tidy enc) (hs : s.Sound) (hgrow : Grows x d cs s t)
  (hes : List.Forall₂ (Encounter.Suits (s.opened x d).graph x) cs es)

include hes in
theorem suits_extend (f : ℕ → Encounter) (n : ℕ) (hi : i < cs.length) :
    Encounter.Suits (s.opened x d).graph x cs[i] (extend f n es (n + i)) := by
  have hlen := hes.length_eq
  rw [extend_add (hlen ▸ hi)]
  exact hes.get hi (hlen ▸ hi)

namespace Tidy

include h hs hgrow hes

theorem mirrors_grows (hr : j ≠ Graph.root) (hj : j < t.graph.size) :
    (extend enc s.graph.size es j).At t.graph j := by
  rcases hgrow.old_or_new hj with hjs | ⟨i, hi, rfl⟩
  · have hscope : (t.graph.node j).artifact.scope = (s.graph.node j).artifact.scope :=
      hgrow.view (fun n => n.artifact.scope) (fun _ => rfl) (fun _ _ => rfl) hjs
    rw [extend_of_lt hjs]
    refine (h.mirrors j hr hjs).congr (hgrow.view Node.site (fun _ => rfl) (fun _ _ => rfl) hjs)
      (by rw [hscope]) fun p hp => ?_
    refine hgrow.pinsBelow ((hs.tree.lt_of_parent hp).trans hjs) fun k hk => ?_
    rcases hk with rfl | ⟨l, hl⟩
    · exact h.parent_ne_leaf hs hgrow.leaf hp
    · exact h.parent_ne_leaf hs hgrow.leaf hl
  · have hsuits := suits_extend hes enc s.graph.size hi
    rw [hgrow.graph, ← size_opened (s := s) (i := x) d]
    exact (size_opened (s := s) (i := x) d ▸ hsuits).at_spawn (isTree_opened hs.tree)
      hgrow.lt_opened hi rfl

omit hes in
theorem hangs_grows (hi : (s.node x).state = .included) (hr : j ≠ Graph.root)
    (hj : j < t.graph.size) : ∃ p : ℕ, (t.node j).parent = some p ∧
      (t.node p).state = .included ∧ j ∈ (t.node p).children := by
  rcases hgrow.old_or_new hj with hjs | ⟨i, hi', rfl⟩
  · obtain ⟨p, hpar, hpi, hc⟩ := h.hangs j hr hjs
    have hps := (hs.tree.lt_of_parent hpar).trans hjs
    exact ⟨p, (hgrow.parent hjs).trans hpar, (hgrow.state hps).trans hpi,
      (hgrow.node_of_ne hps (h.parent_ne_leaf hs hgrow.leaf hpar)).symm ▸ hc⟩
  · refine ⟨x, hgrow.parent_new hi', (hgrow.state hgrow.lt).trans hi, ?_⟩
    rw [hgrow.children_self, List.mem_range']
    exact ⟨i, hi', by omega⟩

omit hs in
theorem beaten_grows (hj : (t.node j).state = .omittedForConflict) :
    ∃ w < j, w ≠ Graph.root ∧ (t.node w).state = .included ∧ (t.node w).key = (t.node j).key := by
  have hjs : j < t.graph.size := Graph.lt_size_of_state (by rw [← node, hj]; decide)
  rcases hgrow.old_or_new hjs with hjs | ⟨i, hi, rfl⟩
  · rw [hgrow.state hjs] at hj
    obtain ⟨w, hwj, hwr, hwi, hwk⟩ := h.beaten j hj
    have hws := hwj.trans hjs
    exact ⟨w, hwj, hwr, (hgrow.state hws).trans hwi,
      (hgrow.key hws).trans (hwk.trans (hgrow.key hjs).symm)⟩
  · rw [hgrow.state_new hi (suits_extend hes enc s.graph.size hi)] at hj
    split at hj <;> cases hj

theorem isInner_grows : t.IsInner := by
  intro j hj
  have hjs : j < t.graph.size := by
    by_contra hn
    rw [node_of_size_le (not_lt.mp hn)] at hj
    exact absurd hj (by decide)
  rcases hgrow.old_or_new hjs with hjs | ⟨i, hi, rfl⟩
  · rw [hgrow.view Node.depth (fun _ => rfl) (fun _ _ => rfl) hjs] at hj
    rw [hgrow.view (fun n => n.artifact.scope) (fun _ => rfl) (fun _ _ => rfl) hjs]
    exact h.inner j hj
  · have hxr : x ≠ Graph.root := by
      rintro rfl
      rw [hgrow.node_new hi] at hj
      have hd : ((s.opened Graph.root d).graph.node Graph.root).depth = 0 :=
        (isTree_opened hs.tree).depth_root
      have hj : 2 ≤ ((s.opened Graph.root d).graph.node Graph.root).depth + 1 := hj
      omega
    rw [hgrow.node_new hi]
    exact (suits_extend hes enc s.graph.size hi).inner hxr

theorem grows (hi : (s.node x).state = .included)
    (hlast : ∀ j p : ℕ, (s.node j).parent = some p → p ≤ x)
    (hinc : ∀ j : ℕ, (t.node j).state = .included →
      j < s.graph.size ∧ (s.node j).state = .included) :
    t.Tidy (extend enc s.graph.size es) where
  mirrors _ hr hj := h.mirrors_grows hs hgrow hes hr hj
  hangs _ hr hj := h.hangs_grows hs hgrow hi hr hj
  inner := h.isInner_grows hs hgrow hes
  cycle j hr hj := by
    rcases hgrow.old_or_new hj with hjs | ⟨i, hi, rfl⟩
    · rw [extend_of_lt hjs, hgrow.state hjs]
      exact h.cycle j hr hjs
    · rw [hgrow.state_new hi (suits_extend hes enc s.graph.size hi)]
      split <;> simp_all
  unfailed j hj := by
    rcases hgrow.old_or_new hj with hjs | ⟨i, hi, rfl⟩
    · rw [hgrow.state hjs]
      exact h.unfailed j hjs
    · rw [hgrow.state_new hi (suits_extend hes enc s.graph.size hi)]
      split <;> decide
  beaten _ hj := h.beaten_grows hgrow hes hj
  version j hr hj := by
    obtain ⟨hjs, hjo⟩ := hinc j hj
    rw [extend_of_lt hjs, hgrow.view Node.version (fun _ => rfl) (fun _ _ => rfl) hjs]
    exact h.version j hr hjo
  orderly := hgrow.isOrderly h.orderly hlast
  requeue := hgrow.requeue.trans h.requeue
  problems := hgrow.problems.trans h.problems

end Tidy

end Expand

theorem Tidy.expand (h : s.Tidy enc) (hs : s.Sound) (hi : (s.node x).state = .included)
    (hx : (s.node x).expanded = false)
    (hlast : ∀ j p : ℕ, (s.node j).parent = some p → p ≤ x)
    (hes : List.Forall₂ (Encounter.Suits (s.opened x d).graph x)
      (d.dependencies.filterMap (childOf? rules (s.opened x d).graph x)) es) :
    (s.expand rules x d).2.Tidy (extend enc s.graph.size es) ∧
      (s.expand rules x d).2.graph.size = s.graph.size + es.length := by
  have hxs : x < s.graph.size := Graph.lt_size_of_isIncluded (isIncluded_iff.mpr hi)
  have hgrow := grows_expand rules hs.tree hxs (hs.fresh x hx) d
  exact ⟨h.grows hs hgrow hes hi hlast fun _ hj => included_expand hxs d hj,
    hes.length_eq ▸ hgrow.size⟩

end Mediation.Collection
