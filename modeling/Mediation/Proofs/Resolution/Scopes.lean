import Mediation.Proofs.Breadth.Tidy
import Mediation.Proofs.Collection.Rescoping
import Mediation.Proofs.Resolution.Lasting

/-! # Scopes in a resolution

Direct dependencies keep the scope that they are requested with. Further down a winner is in the
end no less visible than the losers of its identity, as long as these gave way to it one after the
other: no loser was revived, no direct dependency was displaced, and nothing above was widened.
-/

namespace Mediation

theorem Scope.isWiderThan_eq_false {a b : Scope} :
    a.isWiderThan b = false ↔ a.width ≤ b.width := by
  simp [isWiderThan]

namespace Collection

variable {rules : Rules} {ev : Evidence} {s t : Collection} {g : Graph} {q : Request} {c : Child}
  {y : Dependency} {i j l m n w x : ℕ} {k : Key}

theorem exists_child_of_new (rules : Rules) (t : s.graph.IsTree) (hx : x < s.graph.size)
    (d : Descriptor) (hj : s.graph.size ≤ j) (hlt : j < (s.expand rules x d).2.graph.size) :
    ∃ y ∈ d.dependencies, ∃ c, childOf? rules (s.opened x d).graph x y = some c ∧
      (s.expand rules x d).2.node j = { (s.opened x d).graph.childNode x c with id := j } := by
  have hg := graph_expand rules t hx d
  have hxo : x < (s.opened x d).graph.size := hx.trans_eq (size_opened d).symm
  rw [hg, Graph.size_spawn, size_opened] at hlt
  obtain ⟨i, rfl⟩ := Nat.exists_eq_add_of_le hj
  have hi : i < (d.dependencies.filterMap (childOf? rules (s.opened x d).graph x)).length := by
    omega
  obtain ⟨y, hy, hc⟩ := List.mem_filterMap.mp (List.getElem_mem hi)
  refine ⟨y, hy, _, hc, ?_⟩
  rw [node, hg, ← size_opened (s := s) (i := x) d]
  exact Graph.node_spawn_new hxo hi

/-- What a dependency becomes has the scope that it is declared with, if a node without parent
declares it, and else inherits one. It is on the classpath. -/
theorem scope_of_childOf? (h : childOf? rules g n y = some c) :
    c.coordinate = y.coordinate ∧ rules.filter.all (·.includes c.scope) = true ∧
      ((g.node n).depth = 0 → c.declaredScope = y.scope ∧ c.scope = y.scope) ∧
      ((g.node n).depth ≠ 0 →
        (g.node n).artifact.scope.inherit c.declaredScope = some c.scope) := by
  unfold childOf? at h
  split at h
  · cases h
  dsimp only at h
  generalize hz : (if (g.node n).depth = 0 then none else (rules.pins.get? y.coordinate.key).or
    ((g.pinsBelow n).findSome? (·.get? y.coordinate.key))) = pin at h
  have hcoord : (pin.elim y y.pinned).coordinate = y.coordinate := by cases pin <;> rfl
  obtain ⟨scope, hs, h⟩ := Option.bind_eq_some_iff.mp h
  obtain ⟨_, hg, h⟩ := Option.bind_eq_some_iff.mp h
  cases h
  refine ⟨hcoord, by simpa [Option.guard_eq_some_iff] using hg, fun hd => ?_, fun hd => ?_⟩
  · rw [if_pos hd] at hz
    subst hz
    rw [Dependency.scopeBelow, if_pos hd] at hs
    exact ⟨rfl, (Option.some.inj hs).symm⟩
  · rw [Dependency.scopeBelow, if_neg hd] at hs
    exact hs

/-- A new node is one below the expanded one, and on the classpath. It has the scope that it was
declared with by a node without parent, or inherits one. -/
theorem scope_of_new (rules : Rules) (t : s.graph.IsTree) (hx : x < s.graph.size) (d : Descriptor)
    (hj : s.graph.size ≤ j) (hlt : j < (s.expand rules x d).2.graph.size) :
    ((s.expand rules x d).2.node j).depth = (s.node x).depth + 1 ∧
      rules.filter.all (·.includes ((s.expand rules x d).2.node j).artifact.scope) = true ∧
      ((s.node x).depth = 0 → ∃ y ∈ d.dependencies,
        ((s.expand rules x d).2.node j).artifact.coordinate = y.coordinate ∧
        ((s.expand rules x d).2.node j).declaredScope = y.scope ∧
        ((s.expand rules x d).2.node j).artifact.scope = y.scope) ∧
      ((s.node x).depth ≠ 0 → (s.node x).artifact.scope.inherit
        ((s.expand rules x d).2.node j).declaredScope =
          some ((s.expand rules x d).2.node j).artifact.scope) := by
  obtain ⟨y, hy, c, hc, hnode⟩ := exists_child_of_new rules t hx d hj hlt
  obtain ⟨hcoord, hf, h₀, h₁⟩ := scope_of_childOf? hc
  have hdepth : ((s.opened x d).graph.node x).depth = (s.node x).depth :=
    view_opened d Node.depth fun _ => rfl
  have hscope : ((s.opened x d).graph.node x).artifact.scope = (s.node x).artifact.scope :=
    view_opened d (fun n => n.artifact.scope) fun _ => rfl
  rw [hdepth] at h₀ h₁
  rw [hscope] at h₁
  rw [hnode]
  exact ⟨congrArg (· + 1) hdepth, hf, fun h => ⟨y, hy, hcoord, h₀ h⟩, h₁⟩

theorem scope_expand (rules : Rules) (hx : x < s.graph.size) (d : Descriptor)
    (hj : j < s.graph.size) :
    ((s.expand rules x d).2.node j).artifact.scope = (s.node j).artifact.scope :=
  view_expand hx d (fun n => n.artifact.scope) (fun _ => rfl) (fun _ _ => rfl) hj

/-- Whether direct dependencies have the scopes that they are requested with, and indirect ones
came into the scope of the system by being widened only. -/
structure IsScoped (q : Request) (s : Collection) : Prop where
  direct : ∀ j < s.graph.size, (s.node j).depth = 1 → ∃ y ∈ q.dependencies,
    (s.node j).artifact.coordinate = y.coordinate ∧ (s.node j).declaredScope = y.scope ∧
      (s.node j).artifact.scope = y.scope
  inner : ∀ j < s.graph.size, 2 ≤ (s.node j).depth → (s.node j).artifact.scope = .system →
    s.IsWidened j .system

/-- A node that inherits a scope from below the root is not in that of the system. -/
theorem Passes.ne_system {c : Scope} (h : Passes s w l j c) (hj : j ≠ w)
    (hs : (s.node j).artifact.scope ≠ .system) : c ≠ .system := by
  cases h with
  | own => exact hs
  | taken => exact absurd rfl hj
  | inherited _ _ _ hd => exact Scope.inherit_ne_system hd

theorem isScoped_start (q : Request) : (start q.root q.version q.management).IsScoped q := by
  have hzero {j : ℕ} (hj : j < (start q.root q.version q.management).graph.size) :
      ((start q.root q.version q.management).node j).depth = 0 := by
    obtain rfl : j = Graph.root := Nat.lt_one_iff.mp hj
    rfl
  exact {
    direct j hj hone := by
      rw [hzero hj] at hone
      cases hone
    inner j hj hdeep := by
      rw [hzero hj] at hdeep
      omega }

namespace IsScoped

theorem move {a b : Situation} (h : a.1.IsScoped q) (m : Move rules ev x a b) (hs : Steady a) :
    b.1.IsScoped q := by
  have ht := m.tells
  have hdepth (j : ℕ) : (b.1.node j).depth = (a.1.node j).depth := Node.depth_of_site (ht.site j)
  have hdeep {w j : ℕ} (hw : w ∈ a.1.contenders) (hj : j ∈ a.1.graph.descendants w) :
      2 ≤ (a.1.node j).depth := by
    have h₀ : (a.1.graph.node w).depth ≠ 0 := mt
      (hs.sound.tree.depth_eq_zero_iff (hs.sound.lt_size_of_contender hw)).mp
      (hs.sound.ne_root_of_contender hw)
    have hlt : (a.1.graph.node w).depth < (a.1.graph.node j).depth :=
      depth_lt_of_mem_descendants hs.sound.tree hj
    change 2 ≤ (a.1.graph.node j).depth
    omega
  exact {
    direct j hj hd := by
      rw [ht.size] at hj
      rw [hdepth] at hd
      have hcoord : (b.1.node j).artifact.coordinate = (a.1.node j).artifact.coordinate :=
        congrArg Site.coordinate (ht.site j)
      rw [hcoord, Node.declaredScope_of_site (ht.site j)]
      cases m.rescopes hs j with
      | stays hsc => exact hsc ▸ h.direct j hj hd
      | widens _ _ _ hne => exact absurd hd hne
      | follows hw _ hdesc => exact absurd hd (by have := hdeep hw hdesc; omega)
    inner j hj hd hsys := by
      rw [ht.size] at hj
      rw [hdepth] at hd
      cases m.rescopes hs j with
      | stays hsc => exact (h.inner j hj hd (hsc ▸ hsys)).of_tells ht
      | widens _ _ _ _ _ _ hwid hsc => exact (hsc.symm.trans hsys) ▸ hwid
      | @follows w l hw _ hdesc _ hp =>
        by_cases hold : (a.1.node j).artifact.scope = .system
        · exact (h.inner j hj hd hold).of_tells ht
        · refine absurd hsys (hp.ne_system ?_ hold)
          rintro rfl
          exact hs.sound.not_mem_descendants hdesc }

theorem expand (h : s.IsScoped q) (hs : s.Sound) (hx : x < s.graph.size) (d : Descriptor)
    (hd : x = Graph.root → d = q.descriptor) : (s.expand rules x d).2.IsScoped q := by
  have he := Extends.expand rules hx d
  have hold {j : ℕ} (hj : j < s.graph.size) := he.site j hj
  exact {
    direct j hj hone := by
      by_cases hjs : j < s.graph.size
      · have hcoord : ((s.expand rules x d).2.node j).artifact.coordinate =
            (s.node j).artifact.coordinate := congrArg Site.coordinate (hold hjs)
        rw [Node.depth_of_site (hold hjs)] at hone
        rw [hcoord, Node.declaredScope_of_site (hold hjs), scope_expand rules hx d hjs]
        exact h.direct j hjs hone
      · obtain ⟨hd₁, -, hroot, -⟩ := scope_of_new rules hs.tree hx d (not_lt.mp hjs) hj
        have hzero : (s.node x).depth = 0 := by omega
        have hdeps : d.dependencies = q.dependencies :=
          congrArg Descriptor.dependencies (hd ((hs.tree.depth_eq_zero_iff hx).mp hzero))
        exact hdeps ▸ hroot hzero
    inner j hj hdeep hsys := by
      by_cases hjs : j < s.graph.size
      · rw [Node.depth_of_site (hold hjs)] at hdeep
        rw [scope_expand rules hx d hjs] at hsys
        exact (h.inner j hjs hdeep hsys).of_extends hjs he
      · obtain ⟨hd₁, -, -, hin⟩ := scope_of_new rules hs.tree hx d (not_lt.mp hjs) hj
        exact absurd hsys (Scope.inherit_ne_system (hin (by omega))) }

end IsScoped

def HasFallen (s : Collection) (k : Key) : Prop :=
  ∃ j < s.graph.size, (s.node j).key = k ∧ (s.node j).depth = 1 ∧ s.IsTold j

instance (s : Collection) (k : Key) : Decidable (s.HasFallen k) :=
  inferInstanceAs <| Decidable <| ∃ j < s.graph.size, (s.node j).key = k ∧ (s.node j).depth = 1 ∧
    ∃ e ∈ s.events.toList, e.omits (s.node j).artifact.trail = true

/-- Whether the contenders of an identity met in another way than one after the other: a loser
was revived, a direct dependency was displaced, or what is above one of them was widened. -/
def IsUnsettled (s : Collection) (k : Key) : Prop :=
  s.HasRevived k ∨ s.HasFallen k ∨ s.HasShifted k

instance (s : Collection) (k : Key) : Decidable (s.IsUnsettled k) :=
  inferInstanceAs <| Decidable <| _ ∨ _ ∨ _

theorem HasFallen.of_extends (h : s.HasFallen k) (he : Extends s t) : t.HasFallen k := by
  obtain ⟨j, hj, hk, hd, ht⟩ := h
  exact ⟨j, hj.trans_le he.size, (Node.key_of_site (he.site j hj)).trans hk,
    (Node.depth_of_site (he.site j hj)).trans hd, ht.of_extends hj he⟩

theorem IsUnsettled.of_extends (h : s.IsUnsettled k) (he : Extends s t) : t.IsUnsettled k :=
  h.imp (·.of_extends he) (·.imp (·.of_extends he) (·.of_extends he))

/-- What may become of a newcomer `x` that stays in play, if the winner of its identity is `i`.
Whichever of the two goes on is no less visible than the other was, if it is no direct
dependency. -/
inductive Meets (s t : Collection) (i x : ℕ) : Prop
  | waits (h : (t.node x).state = .pending)
  | fails (h : (t.node x).state = .failed)
  | yields (h : (t.node x).state = .omittedForConflict)
      (hs : (s.node i).depth ≠ 1 →
        (s.node x).artifact.scope.isWiderThan (t.node i).artifact.scope = false)
  | wins (h : (t.node x).state = .included) (ht : t.IsTold i)
      (hs : (s.node x).depth ≠ 1 →
        (s.node i).artifact.scope.isWiderThan (t.node x).artifact.scope = false)

theorem Move.meets {a b : Situation} (m : Move rules ev x a b) (h : Steady a)
    (hp : (a.1.node x).state = .pending) (hw : a.1.winner? (a.1.node x).key = some i)
    (hx : b.1.InPlay x) : Meets a.1 b.1 i x := by
  have hs := h.sound
  -- a newcomer that is not concerned by the move goes on waiting
  have spare {E : Finset ℕ} (hf : Fades E a.1 b.1) {st : NodeState}
      (hE : ∀ j ∈ E, (a.1.node j).state = st) (hst : st ≠ .pending) : Meets a.1 b.1 i x :=
    .waits ((hf.state (fun hm => hst ((hE x hm).symm.trans hp)) hx).trans hp)
  have hincl : NodeState.included ≠ .pending := by decide
  cases m with
  | tell => exact .waits hp
  | choose => exact .waits (((sameShape_select _ _ _).state x).trans hp)
  | tighten => exact .waits (((sameShape_constrain _ _ _).state x).trans hp)
  | retain => exact .waits (((sameShape_constrain _ _ _).state x).trans hp)
  | shift hn =>
    refine spare (hn.fades_shift hs _) (fun j hj => ?_) hincl
    exact Finset.mem_singleton.mp hj ▸ isIncluded_iff.mp hn.rival.included
  | abandon e hn =>
    refine spare (hn.fades_abandon hs e) (fun j hj => ?_) hincl
    exact Finset.mem_singleton.mp hj ▸ isIncluded_iff.mp hn.rival.included
  | reject e => exact .fails (state_collapse hs (Steady.pending_contender hs hp) (.inl hp) e)
  | seat _ _ hn =>
    rw [hw] at hn
    cases hn
  | @yield s j w _ _ hj he hne =>
    obtain rfl := Option.some.inj (hj.symm.trans hw)
    obtain rfl := eq_of_elect he hne
    exact .yields (Node.state_of_core (core_yieldTo hs hp w))
      (carries_yieldTo hs (of_winner?_eq_some hw).1 x).2
  | @displace s j _ _ hj =>
    obtain rfl := Option.some.inj (hj.symm.trans hw)
    exact .wins (included_displace hs hp hw hx) (tells_displace s _ j x).2
      (carries_displace hs (Steady.pending_contender hs hp) _ j).2
  | lose e _ hi =>
    exact absurd ((isIncluded_iff.mp hi).symm.trans hp) (by decide)
  | revive _ he =>
    have hm := mem_of_elect he
    refine spare (.revive hs hm (Finset.mem_singleton_self _) _) (fun j hj => ?_)
      (show NodeState.omittedForConflict ≠ _ by decide)
    exact Finset.mem_singleton.mp hj ▸ (mem_eligible.mp hm).2.2.1
  | skip => exact .waits hp

/-- Whether no loser in play is more visible than the winner of its identity, unless this one is a
direct dependency, or the contenders met in another way than one after the other. -/
structure Prevails (s : Collection) : Prop where
  candid : s.IsCandid
  prevails : ∀ w m : ℕ, s.InPlay w → s.InPlay m → (s.node w).state = .included →
    (s.node m).state = .omittedForConflict → (s.node w).key = (s.node m).key →
      (s.node w).depth ≠ 1 → s.IsUnsettled (s.node w).key ∨
        (s.node m).artifact.scope.isWiderThan (s.node w).artifact.scope = false

namespace Prevails

/-- A pair whose winner is not revived compares as it should when it comes to face each other. -/
theorem of_faces {a b : Situation} (h : a.1.Prevails) (mv : Move rules ev x a b) (hs : Steady a)
    (hf : Faces rules x a.1 w m) (hw : b.1.InPlay w) (hm : b.1.InPlay m)
    (hwi : (b.1.node w).state = .included) (hmo : (b.1.node m).state = .omittedForConflict)
    (hk : (a.1.node w).key = (a.1.node m).key) (hd : (a.1.node w).depth ≠ 1) :
    (a.1.node w).state = .omittedForConflict ∨ b.1.IsUnsettled (a.1.node w).key ∨
      (a.1.node m).artifact.scope.isWiderThan (b.1.node w).artifact.scope = false := by
  obtain ⟨E, hfade⟩ := mv.fades hs
  have he : Extends a.1 b.1 := .of_tells mv.tells
  have hma := hfade.inPlay m hm
  cases hf with
  | still hwi hmo =>
    have hwa := hfade.inPlay w hw
    rcases h.prevails w m hwa hma hwi hmo hk hd with hu | hle
    · exact .inr (.inl (hu.of_extends he))
    · cases mv.rescopes hs w with
      | stays hsc => exact .inr (.inr (hsc ▸ hle))
      | widens _ _ _ _ hwid _ _ hsc =>
        rw [Scope.isWiderThan_eq_false] at hle
        rw [hsc, Scope.isWiderThan_eq_false]
        have hwid := of_decide_eq_true hwid
        exact .inr (.inr (hle.trans hwid.le))
      | follows _ _ _ hsh =>
        have hlt := (hs.sound.lt_size_of_contender hwa.1).trans_le he.size
        exact .inr (.inl (.inr (.inr ⟨w, hlt, Node.key_of_site (hfade.site w), hsh⟩)))
  | yields hmx hp hi =>
    subst hmx
    cases mv.meets hs hp hi hm with
    | yields _ hsc => exact .inr (.inr (hsc hd))
    | waits hst | fails hst | wins hst => exact absurd (hst.symm.trans hmo) (by decide)
  | displaces hwx hp hi =>
    subst hwx
    cases mv.meets hs hp hi hw with
    | wins _ _ hsc => exact .inr (.inr (hsc hd))
    | waits hst | fails hst | yields hst => exact absurd (hst.symm.trans hwi) (by decide)
  | @inherits i hwx hp hi _ _ _ hmo =>
    subst hwx
    obtain ⟨hic, hik, hii⟩ := of_winner?_eq_some hi
    cases mv.meets hs hp hi hw with
    | waits hst | fails hst | yields hst => exact absurd (hst.symm.trans hwi) (by decide)
    | wins _ ht hsc =>
      by_cases hone : (a.1.node i).depth = 1
      · have hlt := (hs.sound.lt_size_of_contender hic).trans_le he.size
        exact .inr (.inl (.inr (.inl ⟨i, hlt, (Node.key_of_site (hfade.site i)).trans hik,
          (Node.depth_of_site (hfade.site i)).trans hone, ht⟩)))
      · have hip := hs.sound.inPlay (hs.sound.ne_root_of_contender hic) (.inr hii)
        rcases h.prevails i m hip hma hii hmo (hik.trans hk) hone with hu | hle
        · exact .inr (.inl (hik ▸ hu.of_extends he))
        · rw [Scope.isWiderThan_eq_false] at hle
          have hsc := Scope.isWiderThan_eq_false.mp (hsc hd)
          exact .inr (.inr (Scope.isWiderThan_eq_false.mpr (hle.trans hsc)))
  | revives _ he => exact .inl (mem_eligible.mp (mem_of_elect he)).2.2.1

theorem move {a b : Situation} (h : a.1.Prevails) (mv : Move rules ev x a b) (hs : Steady a) :
    b.1.Prevails := by
  obtain ⟨E, hf⟩ := mv.fades hs
  have hkey (j : ℕ) : (b.1.node j).key = (a.1.node j).key := Node.key_of_site (hf.site j)
  refine ⟨h.candid.move mv hs, fun w m hw hm hwi hmo hk hd => ?_⟩
  have hwa := hf.inPlay w hw
  have hlt {j : ℕ} (hj : a.1.InPlay j) : j < b.1.graph.size :=
    (hs.sound.lt_size_of_contender hj.1).trans_eq hf.size.symm
  rw [hkey, hkey] at hk
  rw [Node.depth_of_site (hf.site w)] at hd
  rw [hkey]
  rcases h.of_faces mv hs (mv.faces hs hw hm hwi hmo hk) hw hm hwi hmo hk hd with ho | hu | hle
  · exact .inl (.inl ⟨w, hlt hwa, hkey w, (mv.turns hs hw).isRevived ho hwi (h.candid w hwa ho)⟩)
  · exact .inl hu
  · cases mv.rescopes hs m with
    | stays hsc => exact .inr (hsc ▸ hle)
    | widens _ _ _ _ _ hi =>
      rw [hi hm] at hmo
      cases hmo
    | follows _ _ _ hsh =>
      exact .inl (.inr (.inr ⟨m, hlt (hf.inPlay m hm), (hkey m).trans hk.symm, hsh⟩))

theorem expand (h : s.Prevails) (hs : s.Sound) (hx : x < s.graph.size) (d : Descriptor) :
    (s.expand rules x d).2.Prevails := by
  refine ⟨h.candid.expand hs hx d, fun w m hw hm hwi hmo hk hd => ?_⟩
  obtain ⟨hwlt, hw, hwi⟩ := inPlay_of_expand hx d hs hw hwi (by decide)
  obtain ⟨hmlt, hm, hmo⟩ := inPlay_of_expand hx d hs hm hmo (by decide)
  have he := Extends.expand rules hx d
  rw [key_expand hx d hwlt, key_expand hx d hmlt] at hk
  rw [Node.depth_of_site (he.site w hwlt)] at hd
  rw [key_expand hx d hwlt, scope_expand rules hx d hwlt, scope_expand rules hx d hmlt]
  exact (h.prevails w m hw hm hwi hmo hk hd).imp_left (·.of_extends he)

end Prevails

end Collection

namespace Resolver

open Run Collection

variable {σ : Type} {resolver : Resolver σ} {q : Request} {st : σ}

theorem isScoped_of_reaches {stage : Stage} {r : Run σ} (h : resolver.Reaches q st stage r) :
    r.collection.IsScoped q := by
  refine reaches_induct (P := fun z => z.collection.IsScoped q) ?_ (fun z w hz _ hzw hs => ?_) h
  · have hs := (steady_start q.root q.version q.management).sound
    exact (isScoped_start q).expand hs hs.tree.size_pos q.descriptor fun _ => rfl
  · have hst := steady_of_reaches hz
    cases hzw with
    | rests hc => exact hc ▸ hs
    | clears hc => exact hc ▸ ⟨hs.direct, hs.inner⟩
    | moves hm =>
      exact hm.preserve_of_steady (P := fun b => b.1.IsScoped q) hst
        (fun _ _ m hst hs => hs.move m hst) hs
    | expands _ hd hc =>
      exact hc ▸ hs.expand hst.sound hd.lt_size _ fun hx => absurd hx hd.ne_root

theorem lasts_prevails (resolver : Resolver σ) (q : Request) (st : σ) :
    resolver.Lasts q st Prevails where
  start := ⟨isCandid_start _ _ _, fun _ _ hw => absurd hw.1 List.not_mem_nil⟩
  clear h := ⟨h.candid, h.prevails⟩
  move m hs h := h.move m hs
  expand hs h hx _ := h.expand hs (Graph.lt_size_of_isIncluded (isIncluded_iff.mpr hx)) _

/-- All along a resolution direct dependencies keep the scope that they are requested with. In the
end no visible loser is more visible than a winner further down, if the contenders of the identity
met one after the other. -/
theorem winner_is_widest {fuel : ℕ} {res : Resolution}
    (h : (resolver.resolve fuel q st).1 = .ok (some res)) :
    (∀ stage r, resolver.Reaches q st stage r → ∀ j < r.collection.graph.size,
      (r.collection.node j).depth = 1 → ∃ y ∈ q.dependencies,
        (r.collection.node j).artifact.coordinate = y.coordinate ∧
          (r.collection.node j).declaredScope = y.scope ∧
            (r.collection.node j).artifact.scope = y.scope) ∧
    ∀ n ∈ res.graph.included, ∀ m ∈ res.graph.visible, 2 ≤ (res.graph.node n).depth →
      (res.graph.node m).state = .omittedForConflict →
      (res.graph.node m).key = (res.graph.node n).key →
      ¬ (resolver.resolve fuel q st).2.collection.IsUnsettled (res.graph.node n).key →
        (res.graph.node m).artifact.scope.isWiderThan
          (res.graph.node n).artifact.scope = false := by
  refine ⟨fun stage r hr => (isScoped_of_reaches hr).direct, fun n hn m hm hd ho hk hu => ?_⟩
  obtain ⟨hp, -, hg⟩ := poised_of_resolve h
  have hs := hp.steady.sound
  have hw : (resolver.resolve fuel q st).2.collection.Prevails :=
    (lasts_prevails resolver q st).of_resolve h
  generalize (resolver.resolve fuel q st).2.collection = s at hs hg hw hu
  rw [hg] at hn hm hd ho hk hu ⊢
  obtain ⟨hnr, hni⟩ := hs.mem_included_iff.mp hn
  have hmr : m ≠ Graph.root := by
    rintro rfl
    exact absurd (hs.root_included.symm.trans ho) (by decide)
  have hmp := hs.inPlay_of_visible hm hmr (by rw [node, ho]; decide)
  have hone : (s.node n).depth ≠ 1 := by
    change 2 ≤ (s.node n).depth at hd
    omega
  exact (hw.prevails n m (hs.inPlay hnr (.inr hni)) hmp hni ho hk.symm hone).resolve_left hu

def widening : Catalog :=
  (shelf [("b", "1", [("c", "1")]), ("c", "1", [])]).add (library "a").key ⟨"1"⟩
    ⟨[{ Dependency.plain (library "c") (.soft ⟨"1"⟩) with scope := .runtime }], .empty⟩

theorem winner_is_widest_of_widening :
    ∃ res, ((ofPolicy .nearest).resolve 5 clashing widening).1 = .ok (some res) ∧
      3 ∈ res.graph.included ∧ 4 ∈ res.graph.visible ∧ 2 ≤ (res.graph.node 3).depth ∧
      (res.graph.node 4).state = .omittedForConflict ∧
      (res.graph.node 4).key = (res.graph.node 3).key ∧
      ¬ ((ofPolicy .nearest).resolve 5 clashing widening).2.collection.IsUnsettled
        (res.graph.node 3).key ∧
      (res.graph.node 3).declaredScope = .runtime ∧
      (res.graph.node 4).artifact.scope.isWiderThan (res.graph.node 3).artifact.scope = false := by
  obtain ⟨res, h⟩ := finishes_iff.mp
    (show (ofPolicy .nearest).finishes 5 clashing widening = true by decide +kernel)
  obtain ⟨hres, -, -⟩ := reaches_of_resolve h
  have hn : 3 ∈ res.graph.included ∧ 2 ≤ (res.graph.node 3).depth ∧
      (res.graph.node 3).declaredScope = .runtime := by
    rw [hres]
    decide +kernel
  have hm : 4 ∈ res.graph.visible ∧ (res.graph.node 4).state = .omittedForConflict ∧
      (res.graph.node 4).key = (res.graph.node 3).key := by
    rw [hres]
    decide +kernel
  have hu : ¬ ((ofPolicy .nearest).resolve 5 clashing widening).2.collection.IsUnsettled
      (res.graph.node 3).key := by
    rw [hres]
    decide +kernel
  obtain ⟨-, hwide⟩ := winner_is_widest h
  exact ⟨res, h, hn.1, hm.1, hn.2.1, hm.2.1, hm.2.2, hu, hn.2.2,
    hwide 3 hn.1 4 hm.1 hn.2.1 hm.2.1 hm.2.2 hu⟩

end Resolver

end Mediation
