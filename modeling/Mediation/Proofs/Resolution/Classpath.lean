import Mediation.Proofs.Resolution.Closure
import Mediation.Proofs.Resolution.Scopes

/-! # Classpaths

The scope of a node decides, when it is expanded, which dependencies follow it, and a filter, when
it is attached, whether it belongs to the classpath. A later change of the scope undoes either
in few cases only: if it leads out of the scope of the system, or if it comes from further up.
-/

namespace Mediation

/-- What the scopes of a classpath pass on belongs to it, save for the one for compilation. -/
theorem ScopeFilter.includes_inherit {f : ScopeFilter} {c d e : Scope} (hf : f.target ≠ .compile)
    (hc : f.includes c = true) (he : c.inherit d = some e) : f.includes e = true := by
  obtain ⟨t⟩ := f
  cases t with
  | compile => exact absurd rfl hf
  | test => rfl
  | provided | runtime | system =>
    cases c <;> cases d <;> simp_all [includes, Scope.inherit]

namespace Collection

variable {rules : Rules} {ev : Evidence} {s : Collection} {f : ScopeFilter} {x : ℕ}

/-- Whether all nodes belong to a classpath, but for those whose scopes may have been passed down
to their identities, if it is the one for compilation. -/
def Fits (f : ScopeFilter) (s : Collection) : Prop :=
  ∀ j < s.graph.size, j ≠ Graph.root → f.includes (s.node j).artifact.scope = true ∨
    f.target = .compile ∧ s.HasShifted (s.node j).key

namespace Fits

theorem of_passes (h : s.Fits f) (hs : s.Sound) (hf : f.target ≠ .compile) {w l j : ℕ} {c : Scope}
    (hp : Passes s w l j c) (hj : j < s.graph.size) (hr : j ≠ Graph.root) (hl : l < s.graph.size)
    (hlr : l ≠ Graph.root) : f.includes c = true := by
  have hfit {j : ℕ} (hj : j < s.graph.size) (hr : j ≠ Graph.root) :
      f.includes (s.node j).artifact.scope = true :=
    (h j hj hr).resolve_right fun hc => hf hc.1
  induction hp with
  | own => exact hfit hj hr
  | taken => exact hfit hl hlr
  | inherited hp hpr _ hd ih =>
    exact ScopeFilter.includes_inherit hf (ih ((hs.tree.lt_of_parent hp).trans hj) hpr) hd

theorem move {a b : Situation} (h : a.1.Fits f) (m : Move rules ev x a b) (hs : Steady a) :
    b.1.Fits f := by
  intro j hj hr
  have ht := m.tells
  have he : Extends a.1 b.1 := .of_tells ht
  rw [ht.size] at hj
  have hkey : (b.1.node j).key = (a.1.node j).key := Node.key_of_site (ht.site j)
  rw [hkey]
  cases m.rescopes hs j with
  | stays hsc => exact hsc ▸ (h j hj hr).imp_right (.imp_right (·.of_extends he))
  | @widens l _ hl hk _ _ _ _ hsc =>
    rw [hsc, ← hk]
    exact (h l (hs.sound.lt_size_of_contender hl) (hs.sound.ne_root_of_contender hl)).imp_right
      (.imp_right (·.of_extends he))
  | @follows w l _ hl _ hsh hp =>
    by_cases hf : f.target = .compile
    · exact .inr ⟨hf, j, hj.trans_le he.size, hkey, hsh⟩
    · exact .inl (h.of_passes hs.sound hf hp hj hr (hs.sound.lt_size_of_contender hl)
        (hs.sound.ne_root_of_contender hl))

theorem expand (h : s.Fits f) (hf : rules.filter = some f) (hs : s.Sound) (hx : x < s.graph.size)
    (d : Descriptor) : (s.expand rules x d).2.Fits f := by
  intro j hj hr
  have he := Extends.expand rules hx d
  by_cases hjs : j < s.graph.size
  · have hkey : ((s.expand rules x d).2.node j).key = (s.node j).key :=
      Node.key_of_site (he.site j hjs)
    rw [hkey, scope_expand rules hx d hjs]
    exact (h j hjs hr).imp_right (.imp_right (·.of_extends he))
  · obtain ⟨-, hall, -⟩ := scope_of_new rules hs.tree hx d (not_lt.mp hjs) hj
    rw [hf] at hall
    exact .inl hall

end Fits

end Collection

namespace Resolver

open Run Collection

variable {σ : Type} {resolver : Resolver σ} {q : Request} {st : σ}

theorem lasts_fits {f : ScopeFilter} (hf : (resolver.session q).rules.filter = some f) :
    resolver.Lasts q st (Fits f) where
  start _ hj hr := absurd (Nat.lt_one_iff.mp hj) hr
  clear h := h
  move m hs h := h.move m hs
  expand hs h hx _ :=
    h.expand hf hs (Graph.lt_size_of_isIncluded (isIncluded_iff.mpr hx)) _

/-- All included artifacts belong to the classpath that was asked for, but perhaps those of the
identities that a widened scope was passed down to, if it is the one for compilation. -/
theorem included_on_classpath {fuel : ℕ} {res : Resolution} {f : ScopeFilter}
    (hf : (resolver.session q).rules.filter = some f)
    (h : (resolver.resolve fuel q st).1 = .ok (some res)) {a : Artifact} (ha : a ∈ res.included)
    (hs : f.target = .compile → ¬ (resolver.resolve fuel q st).2.collection.HasShifted a.key) :
    f.includes a.scope = true := by
  obtain ⟨hp, -, hg⟩ := poised_of_resolve h
  have hfit : (resolver.resolve fuel q st).2.collection.Fits f := (lasts_fits hf).of_resolve h
  obtain ⟨n, hn, rfl⟩ := List.mem_map.mp ha
  rw [hg] at hn hs ⊢
  obtain ⟨hnr, hni⟩ := hp.steady.sound.mem_included_iff.mp hn
  have hlt := Graph.lt_size_of_isIncluded (isIncluded_iff.mpr hni)
  exact (hfit n hlt hnr).resolve_right fun hc => hs hc.1 hc.2

def compiling : Request := { clashing with filter := some ⟨.compile⟩ }

/-- The dependency for the run time is left out, and the one for compilation is not. -/
theorem included_on_classpath_of_widening :
    ∃ res a, ((ofPolicy .nearest).resolve 5 compiling widening).1 = .ok (some res) ∧
      a ∈ res.included ∧ a.coordinate = library "c" ∧
      ¬ ((ofPolicy .nearest).resolve 5 compiling widening).2.collection.HasShifted a.key ∧
      ScopeFilter.includes ⟨.compile⟩ a.scope = true := by
  obtain ⟨res, h⟩ := finishes_iff.mp
    (show (ofPolicy .nearest).finishes 5 compiling widening = true by decide +kernel)
  obtain ⟨hres, -, -⟩ := reaches_of_resolve h
  have hn : 3 ∈ res.graph.included ∧ (res.graph.node 3).artifact.coordinate = library "c" := by
    rw [hres]
    decide +kernel
  have hs : ¬ ((ofPolicy .nearest).resolve 5 compiling widening).2.collection.HasShifted
      (res.graph.node 3).artifact.key := by
    rw [hres]
    decide +kernel
  have ha : (res.graph.node 3).artifact ∈ res.included := List.mem_map_of_mem hn.1
  exact ⟨res, _, h, ha, hn.2, hs, included_on_classpath rfl h ha fun _ => hs⟩

section Brings

variable {desc : Coordinate → Option Version → Descriptor} {origin : NodeId → Dependency}
  {a b z : Point σ} {n : ℕ}

/-- The scope that a node was expanded in last is that of the system only if it still is, or if
the node was widened to it. -/
theorem scope_ne_system_of_stands (hst : resolver.Stands q st desc origin n a b z)
    (hn : n ≠ Graph.root) (hz : (z.collection.node n).artifact.scope ≠ .system)
    (hw : ¬ z.collection.IsWidened n .system) :
    (a.collection.node n).artifact.scope ≠ .system := by
  intro ha
  have hs := (steady_of_reaches hst.reaches).sound
  have hlt : n < a.collection.graph.size :=
    Graph.lt_size_of_isIncluded (isIncluded_iff.mpr hst.last.expands.2)
  have hleads : Leads (resolver.session q) a z := .head hst.last.step hst.last.leads
  have he := extends_of_leads hst.reaches hleads
  have hsa : a.collection.IsScoped q := isScoped_of_reaches hst.reaches
  have hsz : z.collection.IsScoped q := isScoped_of_reaches (hst.reaches.leads hleads)
  have hsite := he.site n hlt
  have hdepth : (a.collection.graph.node n).depth ≠ 0 := mt (hs.tree.depth_eq_zero_iff hlt).mp hn
  have hdepth : (a.collection.node n).depth ≠ 0 := hdepth
  by_cases hone : (a.collection.node n).depth = 1
  · obtain ⟨_, -, -, hda, hca⟩ := hsa.direct n hlt hone
    obtain ⟨_, -, -, hdz, hcz⟩ :=
      hsz.direct n (hlt.trans_le he.size) ((Node.depth_of_site hsite).trans hone)
    refine hz (hcz.trans (hdz.symm.trans ?_))
    rw [Node.declaredScope_of_site hsite, hda, ← hca, ha]
  · exact hw ((hsa.inner n hlt (by omega) ha).of_extends hlt he)

theorem isLeftOut_eq_false {g : Graph} {c : Scope} {d : Dependency}
    (hq : ∀ k, q.management.get? k = none)
    (hp : ∀ i ∈ g.path n, ∀ k, (q.declaredAt desc g i).management.get? k = none)
    (ho : d.optional = false)
    (hx : ∀ i ∈ g.path n, ∀ e ∈ (origin i).exclusions, e.excludes d.coordinate.key = false)
    (hd : d.scope = .compile ∨ d.scope = .runtime) (hc : c ≠ .system) :
    q.isLeftOut desc g n origin c d = false := by
  have hpin : q.pinAt desc g n d.coordinate.key = none := by
    unfold Request.pinAt
    split
    · rfl
    · rw [hq, Option.none_or, List.findSome?_eq_none_iff]
      intro m hm
      obtain ⟨i, hi, rfl⟩ := List.mem_map.mp hm
      exact hp i hi _
  have hpinned : q.pinnedAt desc g n d = d := by rw [Request.pinnedAt, hpin]; rfl
  have hex : ((g.path n).any fun i => (origin i).exclusions.any (·.excludes d.coordinate.key)) =
      false := by
    rw [List.any_eq_false]
    intro i hi
    rw [Bool.not_eq_true, List.any_eq_false]
    exact fun e he => by simp [hx i hi e he]
  have hscope : [Scope.provided, .test, .system].contains d.scope = false := by
    rcases hd with hd | hd <;> rw [hd] <;> decide
  rw [Request.isLeftOut, hpinned, hex, hscope, ho, beq_eq_false_iff_ne.mpr hc]
  simp

end Brings

/-- Where nothing is filtered out and nothing is pinned, an included node brings every dependency
that its release declares for compilation or for the run time, that is not optional, and that is
not excluded on the way, if the node is not in the scope of the system and never was widened to
it. -/
theorem included_brings_dependencies {fuel : ℕ} {res : Resolution}
    {desc : Coordinate → Option Version → Descriptor}
    (hdesc : ∀ c v d, resolver.source.Describes st c v d → d = desc c v)
    (hf : (resolver.session q).rules.filter = none)
    (hm : ∀ d, resolver.Declares q st d → ∀ k, d.management.get? k = none)
    (h : (resolver.resolve fuel q st).1 = .ok (some res)) :
    ∃ origin : NodeId → Dependency,
      (∀ j ≠ Graph.root, j < res.graph.size → res.graph.IsAttached origin j) ∧
      ∀ n ≠ Graph.root, res.graph.isIncluded n = true →
        (res.graph.node n).artifact.scope ≠ .system →
        ¬ (resolver.resolve fuel q st).2.collection.IsWidened n .system →
        ∀ d ∈ (desc (res.graph.node n).artifact.coordinate (res.graph.node n).version).dependencies,
          d.optional = false → (d.scope = .compile ∨ d.scope = .runtime) →
          (∀ i ∈ res.graph.path n, ∀ e ∈ (origin i).exclusions,
            e.excludes d.coordinate.key = false) →
          ∃ c ∈ res.graph.children n, origin c = d := by
  obtain ⟨hp, -, hg⟩ := poised_of_resolve h
  obtain ⟨-, -, hr⟩ := reaches_of_resolve h
  obtain ⟨origin, hl⟩ := exists_lineage hdesc hf hr
  have hs := hp.steady.sound
  rw [hg]
  refine ⟨origin, hl.grown.attached, fun n hnr hi hsc hw d hd ho hds hex => ?_⟩
  rw [isIncluded_iff] at hi
  have hx := expanded_of_resolve h hi
  obtain ⟨a, b, hst⟩ := hl.stands n hnr hi hx
  have hpins (i : ℕ) (hip : i ∈ (resolver.resolve fuel q st).2.collection.graph.path n) (k : Key) :
      (q.declaredAt desc (resolver.resolve fuel q st).2.collection.graph i).management.get? k =
        none := by
    obtain ⟨hir, -, hii, -⟩ := hs.of_mem_path hi hip
    obtain ⟨_, _, hst⟩ := hl.stands i hir hii (expanded_of_resolve h hii)
    exact hm _ (.inr ⟨_, _, hst.describes⟩) k
  have hleft := isLeftOut_eq_false (hm q.descriptor (.inl rfl)) hpins ho hex hds
    (scope_ne_system_of_stands hst hnr hsc hw)
  have hmem : d ∈ (q.declaredAt desc (resolver.resolve fuel q st).2.collection.graph
      n).dependencies := by
    rw [Request.declaredAt, if_neg hnr]
    exact hd
  refine List.mem_map.mp ?_
  rw [hst.closes.children, List.mem_filter]
  exact ⟨hmem, by rw [hleft]; rfl⟩

def tiered : List ((Coordinate × Version) × Descriptor) :=
  [((library "a", ⟨"1"⟩),
      ⟨[{ Dependency.plain (library "c") (.soft ⟨"1"⟩) with scope := .runtime }], .empty⟩),
    ((library "b", ⟨"1"⟩), ⟨wanted [("c", "1")], .empty⟩),
    ((library "c", ⟨"1"⟩), ⟨wanted [("d", "1")], .empty⟩)]

def tieredResolver : Resolver Unit := .ofConfig (knowing tiered) Config.standard

/-- A library that was widened brings what it wants. -/
theorem included_brings_dependencies_of_tiered :
    ∃ (res : Resolution) (origin : NodeId → Dependency),
      (tieredResolver.resolve 5 clashing ()).1 = .ok (some res) ∧
      res.graph.isIncluded 3 = true ∧
      (tieredResolver.resolve 5 clashing ()).2.collection.IsWidened 3 .compile ∧
      ¬ (tieredResolver.resolve 5 clashing ()).2.collection.IsWidened 3 .system ∧
      ∃ c ∈ res.graph.children 3, origin c = .plain (library "d") (.soft ⟨"1"⟩) := by
  obtain ⟨res, h⟩ := finishes_iff.mp
    (show tieredResolver.finishes 5 clashing () = true by decide +kernel)
  obtain ⟨hres, -, -⟩ := reaches_of_resolve h
  have hm (d : Descriptor) (hd : tieredResolver.Declares clashing () d) (k : Key) :
      d.management.get? k = none := by
    have hmem : d ∈ clashing.descriptor :: ⟨[], .empty⟩ :: tiered.map (·.2) := by
      rcases hd with rfl | ⟨c, v, hd⟩
      · exact List.mem_cons_self ..
      · exact List.mem_cons_of_mem _ (mem_of_knowing hd)
    have hall : ∀ d ∈ clashing.descriptor :: ⟨[], .empty⟩ :: tiered.map (·.2),
        d.management = .empty := by
      simp [tiered, clashing, Request.descriptor, Request.anonymous]
    rw [hall d hmem]
    exact Table.get?_empty k
  have hi : res.graph.isIncluded 3 = true ∧ (res.graph.node 3).artifact.scope ≠ .system ∧
      (res.graph.node 3).version = some ⟨"1"⟩ ∧
      (res.graph.node 3).artifact.coordinate = library "c" := by
    rw [hres]
    decide +kernel
  have hw : (tieredResolver.resolve 5 clashing ()).2.collection.IsWidened 3 .compile ∧
      ¬ (tieredResolver.resolve 5 clashing ()).2.collection.IsWidened 3 .system := by
    decide +kernel
  have hbare : ∀ i ∈ res.graph.path 3, i ≠ Graph.root ∧ i < res.graph.size ∧
      (res.graph.node i).parent.isSome = true ∧ (res.graph.node i).exclusions.length = 0 := by
    rw [hres]
    decide +kernel
  obtain ⟨origin, hatt, hbring⟩ :=
    included_brings_dependencies (fun _ _ _ => eq_known) rfl hm h
  have hex (i : ℕ) (hip : i ∈ res.graph.path 3) : (origin i).exclusions = [] := by
    obtain ⟨hr, hlt, hpar, hnil⟩ := hbare i hip
    obtain ⟨p, hp⟩ := Option.isSome_iff_exists.mp hpar
    have happ := (hatt i hr hlt).exclusions p hp
    rw [List.length_eq_zero_iff.mp hnil] at happ
    exact (List.append_eq_nil_iff.mp happ.symm).2
  refine ⟨res, origin, h, hi.1, hw.1, hw.2,
    hbring 3 (by decide) hi.1 hi.2.1 hw.2 _ ?_ rfl (.inl rfl) fun i hip e he => ?_⟩
  · rw [hi.2.2.1, hi.2.2.2]
    exact List.mem_singleton_self _
  · rw [hex i hip] at he
    cases he

end Resolver

end Mediation
