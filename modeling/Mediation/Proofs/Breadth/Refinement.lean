import Mediation.Proofs.Breadth.Pace

/-! # Refinement of the plain mediation

With recommendations only and under the nearest winner, a resolution keeps what the plain
breadth-first mediation keeps, in the same order, and without a failure.
-/

namespace Mediation.Resolver

open Collection Run Relation

variable {σ : Type} {resolver : Resolver σ} {q : Request} {st : σ}

def KeepsPlain (source : Source σ) (q : Request) (st : σ) (kept : List Encounter) : Prop :=
  ReflTransGen (Roster.Pops q.management (source.Describes st)) ⟨q.direct, []⟩ ⟨[], kept⟩

theorem IsPlain.abreast_start (h : resolver.IsPlain q st) :
    resolver.Abreast q st 0 (resolver.start q st).2 := by
  have hs := (steady_start q.root q.version q.management).sound
  obtain ⟨enc, hc, hk⟩ : ∃ enc, (resolver.start q st).2.collection.Calm q
      (resolver.source.Describes st) enc 1 ∧ _ := calm_start hs h.unfiltered
  exact ⟨fun _ _ => rfl, enc, 1, hc, congrArg List.length hk⟩

theorem Abreast.exists_kept {r : Run σ} {m : ℕ} (ha : resolver.Abreast q st m r)
    (hr : resolver.Reaches q st (.level []) r) :
    r.collection.problems = [] ∧ ∃ kept, KeepsPlain resolver.source q st kept ∧
      (Resolution.ofRun r).included.map (fun a => (a.coordinate, a.selected)) =
        kept.map fun e => (e.coordinate, e.version) := by
  have hh := holds_of_reaches hr
  obtain ⟨-, enc, n, hc, -⟩ := ha
  have hpending : ∀ j : ℕ, (r.collection.node j).state ≠ .pending := by
    intro j hj
    cases hh.pending j hj
  have hexpanded : ∀ j : ℕ, (r.collection.node j).state = .included →
      (r.collection.node j).expanded = true := by
    intro j hj
    by_contra hn
    rcases hh.waiting j hj (Bool.eq_false_iff.mpr hn) with hq | hf
    · rw [hc.requeue] at hq
      cases hq
    · exact hf
  obtain ⟨hchain, hmap⟩ := hc.finish hh.steady.sound hpending hexpanded
  refine ⟨hc.problems, _, hchain, ?_⟩
  rw [← hmap, Resolution.included, List.map_map]
  rfl

/-- Every such resolution comes to an end without problems, unless it is too late, and includes
what the plain mediation keeps, in its order. -/
theorem includes_plain (h : resolver.IsPlain q st) :
    ∃ n, ∀ fuel ≥ n,
      (∃ res kept, (resolver.resolve fuel q st).1 = .ok (some res) ∧ res.problems = [] ∧
        KeepsPlain resolver.source q st kept ∧
        res.included.map (fun a => (a.coordinate, a.selected)) =
          kept.map (fun e => (e.coordinate, e.version)) ∧
        ((∀ c v d d', resolver.source.Describes st c v d → resolver.source.Describes st c v d' →
          d = d') → ∀ kept', KeepsPlain resolver.source q st kept' → kept' = kept)) ∨
      resolver.config.limits.deadline ≠ none ∧ resolver.source.latency ≠ 0 ∧
        (resolver.resolve fuel q st).1 = .error .timeout := by
  refine ⟨{k | ∃ d, resolver.Declares q st d ∧
    ∃ x ∈ d.dependencies, x.coordinate.key = k}.ncard + 2, fun fuel hn => ?_⟩
  have hgo := h.rounds .start h.abreast_start (show _ ≤ 0 + fuel by omega)
  rcases hgo with ⟨b, r, hrun, rfl, m, ha⟩ | ⟨⟨hd, hl⟩, r, hrun⟩
  · have hres : (resolver.resolve fuel q st).1 = .ok (some (.ofRun r)) := by
      rw [resolve_eq, hrun]
    have hsnd : (resolver.resolve fuel q st).2 = r := by
      rw [resolve_eq, hrun]
    obtain ⟨-, -, hr⟩ := reaches_of_resolve hres
    rw [hsnd] at hr
    obtain ⟨hp, kept, hk, hmap⟩ := ha.exists_kept hr
    exact .inl ⟨_, kept, hres, hp, hk, hmap, fun ht kept' hk' => Roster.kept_unique ht hk' hk⟩
  · refine .inr ⟨hd, hl, ?_⟩
    rw [resolve_eq, hrun]

/-- A source that knows the descriptors of some releases, and no dependencies of all others. -/
def knowing (releases : List ((Coordinate × Version) × Descriptor)) : Source Unit where
  latency := 0
  retrieve a st :=
    let r := releases.find? fun r => r.1.1 == a.coordinate && a.selected == some r.1.2
    (.ok (r.elim ⟨[], .empty⟩ (·.2)), st)
  versions _ st := (.ok [], st)
  concretize a st := (Source.plainVersion a, st)

theorem mem_of_knowing {releases : List ((Coordinate × Version) × Descriptor)} {c : Coordinate}
    {v : Option Version} {d : Descriptor} (h : (knowing releases).Describes () c v d) :
    d ∈ ⟨[], .empty⟩ :: releases.map (·.2) := by
  obtain ⟨_, _, a, _, _, h⟩ := h
  have h := Except.ok.inj h
  cases hr : releases.find? fun r => r.1.1 == a.coordinate && a.selected == some r.1.2 with
  | none =>
    simp only [hr] at h
    exact h ▸ List.mem_cons_self ..
  | some r =>
    simp only [hr] at h
    exact h ▸ List.mem_cons_of_mem _ (List.mem_map_of_mem (List.mem_of_find?_eq_some hr))

def crossing : List ((Coordinate × Version) × Descriptor) :=
  [((library "a", ⟨"1"⟩), ⟨wanted [("c", "1")],
      .ofList [((library "d").key, ⟨some (.soft ⟨"2"⟩), none⟩)]⟩),
    ((library "b", ⟨"1"⟩),
      ⟨{ Dependency.plain (library "e") (.soft ⟨"1"⟩) with optional := true } ::
        wanted [("c", "2")], .empty⟩),
    ((library "c", ⟨"1"⟩), ⟨wanted [("a", "1"), ("d", "1")], .empty⟩)]

def crossingResolver : Resolver Unit := .ofConfig (knowing crossing) Config.standard

theorem includes_plain_of_crossing :
    crossingResolver.IsPlain clashing () ∧
      (∃ n, ∀ fuel ≥ n, ∃ res kept, (crossingResolver.resolve fuel clashing ()).1 = .ok (some res) ∧
        res.problems = [] ∧ KeepsPlain (knowing crossing) clashing () kept ∧
        res.included.map (fun a => (a.coordinate, a.selected)) =
          kept.map fun e => (e.coordinate, e.version)) ∧
      (crossingResolver.resolve 5 clashing ()).1.toOption.join.map
          (fun res => res.included.map fun a => (a.coordinate, a.selected)) =
        some ((wanted [("a", "1"), ("b", "1"), ("c", "1"), ("d", "2")]).map
          fun x => (x.coordinate, x.constraint.recommended)) := by
  have hdeclared : ∀ d, crossingResolver.Declares clashing () d →
      d ∈ clashing.descriptor :: ⟨[], .empty⟩ :: crossing.map (·.2) := by
    rintro d (rfl | ⟨c, v, hd⟩)
    · exact List.mem_cons_self ..
    · exact List.mem_cons_of_mem _ (mem_of_knowing hd)
  have hsoft : ∀ d ∈ clashing.descriptor :: ⟨[], .empty⟩ :: crossing.map (·.2),
      ∀ c ∈ d.constraints, c.isSoft = true ∧ c.isConcrete = true := by decide +kernel
  have hplain : crossingResolver.IsPlain clashing () := {
      nearest := rfl
      unfiltered := rfl
      answered _ _ _ := ⟨_, rfl⟩
      fetched _ _ := Nat.zero_le _
      soft d hd c hc := (hsoft d (hdeclared d hd) c hc).1
      concrete d hd c hc := (hsoft d (hdeclared d hd) c hc).2
      finite := by
        have hkeys := ((clashing.descriptor :: ⟨[], .empty⟩ :: crossing.map (·.2)).flatMap
          fun d => d.dependencies.map (·.coordinate.key)).finite_toSet
        refine hkeys.subset ?_
        rintro k ⟨d, hd, x, hx, rfl⟩
        exact List.mem_flatMap.mpr ⟨d, hdeclared d hd, List.mem_map.mpr ⟨x, hx, rfl⟩⟩ }
  refine ⟨hplain, ?_, by decide +kernel⟩
  obtain ⟨n, hn⟩ := includes_plain hplain
  refine ⟨n, fun fuel hf => ?_⟩
  rcases hn fuel hf with ⟨res, kept, hres, hp, hk, hm, -⟩ | ⟨-, hl, -⟩
  · exact ⟨res, kept, hres, hp, hk, hm⟩
  · exact absurd rfl hl

end Mediation.Resolver
