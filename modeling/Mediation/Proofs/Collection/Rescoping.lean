import Mediation.Proofs.Collection.Candor
import Mediation.Proofs.Collection.Widening

/-! # Where scopes come from

A node keeps the scope that it was attached with until it wins over a loser with a wider one, or
until a node above it does so. Both are told, and direct dependencies are exempt.
-/

namespace Mediation

namespace Event

/-- Whether an event tells that the artifact with a trail got a wider scope. -/
def widens (e : Event) (t : Trail) (c : Scope) : Bool :=
  match e with
  | scopeWidened a d => a.trail == t && d == c
  | _ => false

/-- Whether an event tells that an artifact above the one with a trail got a wider scope. -/
def widensAbove (e : Event) (t : Trail) : Bool :=
  match e with
  | scopeWidened a _ => a.trail.isPrefixOf t && a.trail != t
  | _ => false

end Event

namespace Node

def stance (n : Node) : Site × Scope := (n.site, n.artifact.scope)

end Node

namespace Graph.IsTree

variable {g : Graph} {i j p : ℕ}

theorem trail_prefix (t : g.IsTree) (h : j ∈ g.descendants i) :
    (g.node i).artifact.trail <+: (g.node j).artifact.trail ∧
      (g.node i).artifact.trail ≠ (g.node j).artifact.trail := by
  induction j using Nat.strong_induction_on with
  | _ j ih =>
    obtain ⟨p, hc, hp⟩ := t.mem_descendants_iff.mp h
    have htrail := t.trail_eq j p (t.child p j hc).2
    have hup : (g.node p).artifact.trail <+: (g.node j).artifact.trail :=
      htrail ▸ List.prefix_append _ _
    have hle : (g.node i).artifact.trail <+: (g.node p).artifact.trail := by
      rcases hp with rfl | hp
      · exact List.prefix_rfl
      · exact (ih p (t.lt_of_child hc) hp).1
    refine ⟨hle.trans hup, fun he => ?_⟩
    have hlen := hle.length_le
    rw [he, htrail, List.length_append, List.length_singleton] at hlen
    omega

end Graph.IsTree

namespace Collection

variable {rules : Rules} {ev : Evidence} {s t u : Collection} {i j l p w x : ℕ} {c : Scope}
  {k : Key}

def IsWidened (s : Collection) (j : NodeId) (c : Scope) : Prop :=
  ∃ e ∈ s.events.toList, e.widens (s.node j).artifact.trail c = true

def IsShifted (s : Collection) (j : NodeId) : Prop :=
  ∃ e ∈ s.events.toList, e.widensAbove (s.node j).artifact.trail = true

def HasShifted (s : Collection) (k : Key) : Prop :=
  ∃ j < s.graph.size, (s.node j).key = k ∧ s.IsShifted j

instance (s : Collection) (j : NodeId) (c : Scope) : Decidable (s.IsWidened j c) :=
  inferInstanceAs <| Decidable <| ∃ e ∈ s.events.toList,
    e.widens (s.node j).artifact.trail c = true

instance (s : Collection) (k : Key) : Decidable (s.HasShifted k) :=
  inferInstanceAs <| Decidable <| ∃ j < s.graph.size, (s.node j).key = k ∧
    ∃ e ∈ s.events.toList, e.widensAbove (s.node j).artifact.trail = true

theorem IsWidened.of_tells (h : s.IsWidened j c) (ht : Tells s t) : t.IsWidened j c := by
  obtain ⟨e, he, hw⟩ := h
  exact ⟨e, ht.events.subset he, ht.trail j ▸ hw⟩

theorem IsShifted.of_tells (h : s.IsShifted j) (ht : Tells s t) : t.IsShifted j := by
  obtain ⟨e, he, hw⟩ := h
  exact ⟨e, ht.events.subset he, ht.trail j ▸ hw⟩

theorem IsWidened.of_extends (h : s.IsWidened j c) (hj : j < s.graph.size) (he : Extends s t) :
    t.IsWidened j c := by
  obtain ⟨e, hm, hw⟩ := h
  exact ⟨e, he.events.subset hm, he.trail hj ▸ hw⟩

theorem HasShifted.of_extends (h : s.HasShifted k) (he : Extends s t) : t.HasShifted k := by
  obtain ⟨j, hj, hk, e, hm, hw⟩ := h
  exact ⟨j, hj.trans_le he.size, (Node.key_of_site (he.site j hj)).trans hk, e,
    he.events.subset hm, he.trail hj ▸ hw⟩

theorem isWidened_emit (s : Collection) (i : NodeId) (c : Scope) :
    (s.emit (.scopeWidened (s.node i).artifact c)).IsWidened i c :=
  ⟨.scopeWidened (s.node i).artifact c, by simp [emit], by simp [Event.widens]⟩

theorem isShifted_emit (ht : s.graph.IsTree) (h : j ∈ s.graph.descendants i) (c : Scope) :
    (s.emit (.scopeWidened (s.node i).artifact c)).IsShifted j := by
  obtain ⟨hp, hne⟩ := ht.trail_prefix h
  refine ⟨.scopeWidened (s.node i).artifact c, by simp [emit], ?_⟩
  have hp : (s.node i).artifact.trail <+: (s.node j).artifact.trail := hp
  have hne : (s.node i).artifact.trail ≠ (s.node j).artifact.trail := hne
  simp [Event.widensAbove, hp, hne]

def SameScopes (s t : Collection) : Prop := ∀ j : ℕ, (t.node j).stance = (s.node j).stance

namespace SameScopes

theorem refl (s : Collection) : SameScopes s s := fun _ => rfl

theorem trans (h : SameScopes s t) (h' : SameScopes t u) : SameScopes s u :=
  fun j => (h' j).trans (h j)

theorem site (h : SameScopes s t) (j : ℕ) : (t.node j).site = (s.node j).site :=
  congrArg Prod.fst (h j)

theorem scope (h : SameScopes s t) (j : ℕ) :
    (t.node j).artifact.scope = (s.node j).artifact.scope :=
  congrArg Prod.snd (h j)

theorem update {f : Node → Node} (hf : ∀ n, (f n).stance = n.stance) (s : Collection) (i : ℕ) :
    SameScopes s (s.update i f) := view_update Node.stance hf s i

theorem foldl {f : Node → Node} (hf : ∀ n, (f n).stance = n.stance) (is : List NodeId)
    (s : Collection) : SameScopes s (is.foldl (fun s i => s.update i f) s) :=
  view_foldl_update is s Node.stance hf

theorem accept (s : Collection) (i : NodeId) : SameScopes s (s.accept i) := by
  intro j
  exact view_accept Node.stance fun _ => rfl

theorem enqueue (s : Collection) (i : NodeId) : SameScopes s (s.enqueue i) := by
  unfold Collection.enqueue
  split <;> exact refl _

theorem disableBelow (s : Collection) (i : NodeId) : SameScopes s (s.disableBelow i) := by
  intro j
  exact view_disableBelow Node.stance fun _ _ => rfl

theorem prune (s : Collection) (i : NodeId) : SameScopes s (s.prune i) := by
  intro j
  rw [node_prune]
  split <;> rfl

theorem constrain (s : Collection) (i : NodeId) (c : Constraint) :
    SameScopes s (s.constrain i c) := by
  apply update
  intro _; rfl

theorem select (s : Collection) (i : NodeId) (v : Version) : SameScopes s (s.select i v) := by
  apply update
  intro _; rfl

theorem rebase (s : Collection) (i : NodeId) (v : Version) : SameScopes s (s.rebase i v).1 := by
  unfold Collection.rebase
  dsimp only
  split
  · exact (((select s i v).trans (disableBelow _ i)).trans (prune _ i)).trans (enqueue _ i)
  · exact select s i v

theorem collapse (s : Collection) (i : NodeId) (e : NodeError) :
    SameScopes s (s.collapse i e).1 := by
  have h : SameScopes s ((s.update i fun n => { n with state := .failed }).report i e) := by
    apply update
    intro _; rfl
  unfold Collection.collapse
  dsimp only
  split
  · split
    · exact h.trans (disableBelow _ i)
    · exact h
  · exact h

theorem revive (s : Collection) (w : NodeId) (cs : List NodeId) :
    SameScopes s (s.revive w cs) := by
  have h : SameScopes s (cs.foldl (fun s c => s.update c fun n => { n with kept := some w }) s) :=
    foldl (by intro _; rfl) cs s
  unfold Collection.revive
  dsimp only
  split
  · exact ((h.trans (prune _ w)).trans (accept _ w)).trans (enqueue _ w)
  · exact (h.trans (accept _ w)).trans (enqueue _ w)

end SameScopes

/-- The scopes that nodes may come to have when the winner `w` meets the loser `l`: their own, that
of the loser, and those that they inherit. -/
inductive Passes (s : Collection) (w l : ℕ) : ℕ → Scope → Prop
  | own (j : ℕ) : Passes s w l j (s.node j).artifact.scope
  | taken : Passes s w l w (s.node l).artifact.scope
  | inherited {j p : ℕ} {c d : Scope} (hp : (s.node j).parent = some p) (hr : p ≠ Graph.root)
      (h : Passes s w l p c) (hd : c.inherit (s.node j).declaredScope = some d) :
      Passes s w l j d

/-- What may become of the scope of the node `j` when the winner `w` meets the loser `l`. -/
inductive Carries (s t : Collection) (w l j : ℕ) : Prop
  | stays (h : (t.node j).artifact.scope = (s.node j).artifact.scope)
  | widens (hj : j = w) (hd : (s.node w).depth ≠ 1)
      (hw : (s.node l).artifact.scope.isWiderThan (s.node w).artifact.scope = true)
      (ht : t.IsWidened w (s.node l).artifact.scope)
      (h : (t.node w).artifact.scope = (s.node l).artifact.scope)
  | follows (hj : j ∈ s.graph.descendants w) (ht : t.IsShifted j)
      (h : Passes s w l j (t.node j).artifact.scope)

theorem Passes.of_sameScopes (h : SameScopes s t) {c : Scope} (hp : Passes t w l j c) :
    Passes s w l j c := by
  induction hp with
  | own j =>
    rw [h.scope]
    exact .own j
  | taken =>
    rw [h.scope]
    exact .taken
  | inherited hp hr _ hd ih =>
    rw [Node.parent_of_site (h.site _)] at hp
    rw [Node.declaredScope_of_site (h.site _)] at hd
    exact .inherited hp hr ih hd

theorem Carries.congr {s' t' : Collection} (h : Carries s t w l j) (hs : SameScopes s' s)
    (hd : s.graph.descendants w = s'.graph.descendants w) (ht : SameScopes t t')
    (hte : Tells t t') : Carries s' t' w l j := by
  cases h with
  | stays h => exact .stays ((ht.scope j).trans (h.trans (hs.scope j)))
  | widens hj hdep hw hwid h =>
    rw [hs.scope] at hw hwid h
    rw [hs.scope] at hw
    exact .widens hj (Node.depth_of_site (hs.site w) ▸ hdep) hw (hwid.of_tells hte)
      ((ht.scope w).trans h)
  | follows hj hsh h =>
    refine .follows (hd ▸ hj) (hsh.of_tells hte) ?_
    rw [ht.scope]
    exact h.of_sameScopes hs

section Rescope

theorem node_rescope_of_ne (s : Collection) (h : i ≠ j) : (s.rescope i).node j = s.node j := by
  unfold rescope
  dsimp only
  cases (do
    let parent ← (s.node i).parent
    (s.node parent).artifact.scope.inherit (s.node i).declaredScope) with
  | none => rfl
  | some _ => exact node_update_of_ne h

/-- A node keeps its scope, or gets one that it inherits from its parent. -/
theorem scope_rescope (s : Collection) (i : NodeId) :
    ((s.rescope i).node i).artifact.scope = (s.node i).artifact.scope ∨
      ∃ p, (s.node i).parent = some p ∧ (s.node p).artifact.scope.inherit
        (s.node i).declaredScope = some ((s.rescope i).node i).artifact.scope := by
  unfold rescope
  dsimp only
  cases hc : (do
    let parent ← (s.node i).parent
    (s.node parent).artifact.scope.inherit (s.node i).declaredScope) with
  | none => exact .inl rfl
  | some c =>
    obtain ⟨p, hp, hc⟩ := Option.bind_eq_some_iff.mp hc
    refine .inr ⟨p, hp, ?_⟩
    have hi : i < s.graph.size := Graph.lt_size_of_parent hp
    rw [hc, Option.elim_some, node_update_self hi]

theorem passes_foldl_rescope {is : List NodeId} (hsite : ∀ j : ℕ, (u.node j).site = (s.node j).site)
    (hu : ∀ j : ℕ, Passes s w l j (u.node j).artifact.scope)
    (his : ∀ i ∈ is, ∀ p, (s.node i).parent = some p → p ≠ Graph.root) :
    (∀ j : ℕ, Passes s w l j ((is.foldl rescope u).node j).artifact.scope) ∧
      ∀ j : ℕ, j ∉ is → (is.foldl rescope u).node j = u.node j := by
  induction is generalizing u with
  | nil => exact ⟨hu, fun _ _ => rfl⟩
  | cons i is ih =>
    have hstep (j : ℕ) : Passes s w l j ((u.rescope i).node j).artifact.scope := by
      by_cases hij : i = j
      · subst hij
        rcases scope_rescope u i with h | ⟨p, hp, h⟩
        · rw [h]
          exact hu i
        · rw [Node.parent_of_site (hsite i)] at hp
          rw [Node.declaredScope_of_site (hsite i)] at h
          exact .inherited hp (his i (List.mem_cons_self ..) p hp) (hu p) h
      · rw [node_rescope_of_ne u hij]
        exact hu j
    have hsite' (j : ℕ) : ((u.rescope i).node j).site = (s.node j).site :=
      ((Tells.rescope u i).site j).trans (hsite j)
    obtain ⟨h₁, h₂⟩ := ih hsite' hstep fun k hk => his k (List.mem_cons_of_mem _ hk)
    refine ⟨h₁, fun j hj => ?_⟩
    rw [List.mem_cons, not_or] at hj
    exact (h₂ j hj.2).trans (node_rescope_of_ne u (Ne.symm hj.1))

end Rescope

section WidenScope

variable (ht : s.graph.IsTree) (hlt : w < s.graph.size) (hr : w ≠ Graph.root)
include ht hlt hr

/-- A winner that is not a direct dependency ends with a scope no less wide than the loser's, and
what is below it follows. -/
theorem carries_widenScope (l : ℕ) : (∀ j, Carries s (s.widenScope w l) w l j) ∧
    ((s.node w).depth ≠ 1 → (s.node l).artifact.scope.isWiderThan
      ((s.widenScope w l).node w).artifact.scope = false) := by
  unfold widenScope
  dsimp only
  split
  · rename_i hw
    exact ⟨fun _ => .stays rfl, fun _ => Bool.not_eq_true _ ▸ by simpa using hw⟩
  rename_i hw
  split
  · rename_i hone
    exact ⟨fun _ => .stays rfl, fun h => absurd hone h⟩
  rename_i hone
  have hw : (s.node l).artifact.scope.isWiderThan (s.node w).artifact.scope = true := by
    simpa using hw
  set c := (s.node l).artifact.scope with hc
  set v := s.emit (.scopeWidened (s.node w).artifact c) with hv
  set u := v.update w fun n => { n with artifact := { n.artifact with scope := c } } with hu
  have hsite (j : ℕ) : (u.node j).site = (s.node j).site :=
    view_update Node.site (by intro _; rfl) v w j
  have hself : (u.node w).artifact.scope = c := by
    rw [hu, node_update_self (s := v) hlt]
  have hother {j : ℕ} (hj : w ≠ j) : u.node j = s.node j := node_update_of_ne hj
  have hdesc : u.graph.descendants w = s.graph.descendants w :=
    descendants_eq (s := s) (Graph.size_update _ _ _)
      (view_update Node.children (by intro _; rfl) v w) w
  have hnot : w ∉ s.graph.descendants w := ht.not_mem_descendants w
  have hpass (j : ℕ) : Passes s w l j (u.node j).artifact.scope := by
    by_cases hj : w = j
    · subst hj
      rw [hself]
      exact .taken
    · rw [hother hj]
      exact .own j
  obtain ⟨h₁, h₂⟩ := passes_foldl_rescope hsite hpass
    fun i hi p hp => by
      obtain ⟨q, hq, hqw⟩ := ht.mem_descendants_iff.mp hi
      obtain rfl : q = p := Option.some.inj ((ht.child q i hq).2.symm.trans hp)
      rcases hqw with rfl | hqw
      · exact hr
      · exact Nat.ne_of_gt ((Nat.zero_le w).trans_lt (ht.lt_of_mem_descendants hqw))
  have htell : Tells v ((s.graph.descendants w).foldl rescope u) :=
    .trans (by apply Tells.update; intro _; rfl) (.foldl Tells.rescope _ u)
  rw [hdesc]
  have hwin : (((s.graph.descendants w).foldl rescope u).node w).artifact.scope = c := by
    rw [h₂ w hnot, hself]
  refine ⟨fun j => ?_, fun _ => ?_⟩
  · by_cases hj : j ∈ s.graph.descendants w
    · exact .follows hj ((isShifted_emit ht hj c).of_tells htell) (h₁ j)
    · by_cases hjw : w = j
      · exact .widens hjw.symm hone hw ((isWidened_emit s w c).of_tells htell) hwin
      · refine .stays ?_
        rw [h₂ j hj, hother hjw]
  · rw [hwin]
    simp [Scope.isWiderThan]

end WidenScope

section Decide

variable (hs : s.Sound)
include hs

/-- What a decision does to scopes, if all that it does before and after is to mark nodes. -/
theorem carries_of_marks (hw : w ∈ s.contenders) (l : ℕ) (hsize : u.graph.size = s.graph.size)
    (hu : SameScopes s u) (hc : ∀ j : ℕ, (u.node j).children = (s.node j).children)
    (ht : SameScopes (u.widenScope w l) t) (hte : Tells (u.widenScope w l) t) :
    (∀ j, Carries s t w l j) ∧ ((s.node w).depth ≠ 1 →
      (s.node l).artifact.scope.isWiderThan (t.node w).artifact.scope = false) := by
  have htree : u.graph.IsTree := hs.tree.of_sites hsize hu.site fun j => by
    rw [children_eq, children_eq, hc]
  obtain ⟨h₁, h₂⟩ := carries_widenScope htree (hsize ▸ hs.lt_size_of_contender hw)
    (hs.ne_root_of_contender hw) l
  refine ⟨fun j => (h₁ j).congr hu (descendants_eq hsize hc w) ht hte, fun h => ?_⟩
  rw [← hu.scope, ht.scope]
  exact h₂ ((Node.depth_of_site (hu.site w)).trans_ne h)

/-- A winner takes over the scope of a newcomer that gives way to it. -/
theorem carries_yieldTo (hw : w ∈ s.contenders) (x : ℕ) :
    (∀ j, Carries s (s.yieldTo w x) w x j) ∧ ((s.node w).depth ≠ 1 →
      (s.node x).artifact.scope.isWiderThan ((s.yieldTo w x).node w).artifact.scope = false) := by
  refine carries_of_marks hs hw x
    (u := (s.update x fun n => { n with state := .omittedForConflict, kept := some w }).emit _)
    (Graph.size_update _ _ _) ?_ ?_ (.refl _) (.refl _)
  · apply SameScopes.update
    intro _; rfl
  · apply view_update Node.children
    intro _; rfl

theorem carries_displace (hx : x ∈ s.contenders) (k : Key) (i : ℕ) :
    (∀ j, Carries s (s.displace k i x).1 x i j) ∧ ((s.node x).depth ≠ 1 →
      (s.node i).artifact.scope.isWiderThan
        ((s.displace k i x).1.node x).artifact.scope = false) := by
  have hmark : SameScopes s (s.update i fun n =>
      { n with state := .omittedForConflict, kept := some x }) := by
    apply SameScopes.update
    intro _; rfl
  have hchildren : ∀ j : ℕ, ((s.update i fun n =>
      { n with state := .omittedForConflict, kept := some x }).node j).children =
        (s.node j).children := by
    apply view_update Node.children
    intro _; rfl
  have hsize : (s.update i fun n =>
      { n with state := .omittedForConflict, kept := some x }).graph.size = s.graph.size :=
    Graph.size_update _ _ _
  unfold displace
  dsimp only
  generalize s.update i (fun n => { n with state := .omittedForConflict, kept := some x }) = u at *
  have hu (e : Event) : SameScopes s (((u.emit e).accept x).redirect k i x) :=
    (hmark.trans (.accept (u.emit e) x)).trans (.foldl (by intro _; rfl) _ _)
  have hc (e : Event) (j : ℕ) :
      ((((u.emit e).accept x).redirect k i x).node j).children = (s.node j).children := by
    rw [(agrees_redirect _ _ _ _).children, view_accept Node.children fun _ => rfl]
    exact hchildren j
  have hn (e : Event) : (((u.emit e).accept x).redirect k i x).graph.size = s.graph.size :=
    ((agrees_redirect _ _ _ _).size.trans size_accept).trans hsize
  split
  · exact carries_of_marks hs hx i (hn _) (hu _) (hc _) (.disableBelow _ i) (.disableBelow _ i)
  · exact carries_of_marks hs hx i (hn _) (hu _) (hc _) (.refl _) (.refl _)

end Decide

/-- What may become of the scope of a node while another one is at hand. -/
inductive Rescopes (s t : Collection) (j : ℕ) : Prop
  | stays (h : (t.node j).artifact.scope = (s.node j).artifact.scope)
  | widens {l : ℕ} (hj : j ∈ s.contenders) (hl : l ∈ s.contenders)
      (hk : (s.node l).key = (s.node j).key) (hd : (s.node j).depth ≠ 1)
      (hw : (s.node l).artifact.scope.isWiderThan (s.node j).artifact.scope = true)
      (hi : t.InPlay j → (t.node j).state = .included)
      (ht : t.IsWidened j (s.node l).artifact.scope)
      (h : (t.node j).artifact.scope = (s.node l).artifact.scope)
  | follows {w l : ℕ} (hw : w ∈ s.contenders) (hl : l ∈ s.contenders)
      (hj : j ∈ s.graph.descendants w) (ht : t.IsShifted j)
      (h : Passes s w l j (t.node j).artifact.scope)

theorem Carries.rescopes (h : Carries s t w l j) (hw : w ∈ s.contenders) (hl : l ∈ s.contenders)
    (hk : (s.node l).key = (s.node w).key)
    (hi : t.InPlay w → (t.node w).state = .included) : Rescopes s t j := by
  cases h with
  | stays h => exact .stays h
  | widens hj hd hwid ht h =>
    subst hj
    exact .widens hw hl hk hd hwid hi ht h
  | follows hj ht h => exact .follows hw hl hj ht h

theorem Move.rescopes {a b : Situation} (m : Move rules ev x a b) (h : Steady a) (j : ℕ) :
    Rescopes a.1 b.1 j := by
  have hs := h.sound
  have same {s t : Collection} (h : SameScopes s t) : Rescopes s t j := .stays (h.scope j)
  cases m with
  | tell e => exact same (.refl _)
  | choose => exact same (.select _ _ _)
  | tighten => exact same (.constrain _ _ _)
  | retain => exact same (.constrain _ _ _)
  | shift => exact same ((SameScopes.constrain _ _ _).trans (.rebase _ _ _))
  | abandon e => exact same ((SameScopes.constrain _ _ _).trans (.collapse _ _ e))
  | reject e => exact same (.collapse _ _ e)
  | seat => exact same (.accept _ _)
  | @yield s i w hp _ hw he hne =>
    obtain ⟨hi, hik, hii⟩ := of_winner?_eq_some hw
    have hx := Steady.pending_contender hs hp
    obtain rfl := eq_of_elect he hne
    refine ((carries_yieldTo hs hi x).1 j).rescopes hi hx hik.symm fun hin => ?_
    have hwx : w ∉ ({x} : Finset ℕ) := Finset.notMem_singleton.mpr hne
    exact ((Fades.yieldTo hs hp (Finset.mem_singleton_self x) w).state hwx hin).trans hii
  | @displace s i hp _ hw =>
    obtain ⟨hi, hik, -⟩ := of_winner?_eq_some hw
    have hx := Steady.pending_contender hs hp
    exact ((carries_displace hs hx _ i).1 j).rescopes hx hi hik (included_displace hs hp hw)
  | lose e => exact same (.collapse _ _ e)
  | revive => exact same (.revive _ _ _)
  | skip => exact same (.refl _)

end Collection

end Mediation
