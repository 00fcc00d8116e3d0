import Mediation.Proofs.Resolution.Problems
import Mediation.Proofs.Run.Strictness

/-! # What a strict resolution refuses

To be strict changes no outcome. A strict resolution gives what a lenient one gives if that has no
problems but with optional dependencies, and fails otherwise.
-/

namespace Mediation.Resolver

open Run Collection

variable {σ : Type}

def withStrict (resolver : Resolver σ) (strict : Bool) : Resolver σ :=
  { resolver with config := { resolver.config with strict := strict } }

theorem start_withStrict (resolver : Resolver σ) (b : Bool) (q : Request) (st : σ) :
    (resolver.withStrict b).start q st = resolver.start q st := by
  have hexpand (s : Collection) (d : Descriptor) :
      s.expand ((resolver.withStrict b).session q).rules Graph.root d =
        s.expand (resolver.session q).rules Graph.root d :=
    expand_withStrict (resolver.session q).rules b s Graph.root d
  unfold start
  rw [hexpand]

theorem isLenient_start (resolver : Resolver σ) (q : Request) (st : σ) :
    (resolver.start q st).2.IsLenient := by
  have hroot : Graph.root < (Collection.start q.root q.version q.management).graph.size :=
    Nat.one_pos
  have hproblems : (resolver.start q st).2.collection.problems = [] :=
    (problems_expand hroot ⟨q.dependencies, q.management⟩).trans rfl
  intro p hp
  rw [hproblems] at hp
  cases hp

/-- A strict resolution only refuses: it ends with a result just if the lenient one ends with the
same result, the problems of which concern optional dependencies only. Else it fails, as it does
if the lenient one fails, unless neither has come to an end. -/
theorem strict_only_refuses (resolver : Resolver σ) (fuel : ℕ) (q : Request) (st : σ) :
    (∀ res r, (resolver.withStrict true).resolve fuel q st = (.ok (some res), r) ↔
      (resolver.withStrict false).resolve fuel q st = (.ok (some res), r) ∧
        ∀ p ∈ res.problems, p.artifact.optional = true) ∧
    (∀ e, ((resolver.withStrict false).resolve fuel q st).1 = .error e →
      ∃ e', ((resolver.withStrict true).resolve fuel q st).1 = .error e') ∧
    (((resolver.withStrict true).resolve fuel q st).1 = .ok none →
      ((resolver.withStrict false).resolve fuel q st).1 = .ok none) := by
  have h : Refuses Run.IsLenient (resolver.start q st).2
      (rounds ((resolver.withStrict false).session q) fuel (resolver.start q st).1
        (resolver.start q st).2)
      (rounds ((resolver.withStrict true).session q) fuel (resolver.start q st).1
        (resolver.start q st).2) :=
    restrains_rounds (resolver.session q) fuel (resolver.start q st).1 _
  have hstart := isLenient_start resolver q st
  simp only [resolve_eq, start_withStrict]
  generalize rounds ((resolver.withStrict false).session q) fuel (resolver.start q st).1
    (resolver.start q st).2 = x, rounds ((resolver.withStrict true).session q) fuel
    (resolver.start q st).1 (resolver.start q st).2 = y at h ⊢
  cases h with
  | same hx =>
    refine ⟨fun res r => (and_iff_left_of_imp fun hr => ?_).symm, fun e he => ⟨e, he⟩, id⟩
    rcases x with ⟨_ | _, t⟩ | ⟨e, t⟩
    · cases hr
    · cases hr
      exact (hx true _ rfl).mpr hstart
    · cases hr
  | refused hx =>
    refine ⟨fun res r => iff_of_false nofun ?_, fun _ _ => ⟨_, rfl⟩, nofun⟩
    rintro ⟨hr, hlenient⟩
    rcases x with ⟨_ | _, t⟩ | ⟨e, t⟩
    · cases hr
    · cases hr
      exact hx true _ rfl hlenient
    · cases hr

/-- What is wanted in vain is refused where it is not optional: with a library that wants a missing
one the lenient resolution has its result and the strict one fails, while both have the same result
if only the optional library is missing. -/
theorem strict_only_refuses_of_hoping :
    (∃ res, (((ofPolicy .nearest).withStrict false).resolve 5 hoping broken).1 = .ok (some res) ∧
      ∃ p ∈ res.problems, p.artifact.optional = false) ∧
    (∃ e, (((ofPolicy .nearest).withStrict true).resolve 5 hoping broken).1 = .error e) ∧
    ∃ res, (((ofPolicy .nearest).withStrict true).resolve 5 hoping (shelf [("a", "1", [])])).1 =
      .ok (some res) ∧ res.problems.length = 1 := by
  obtain ⟨res, h⟩ := finishes_iff.mp
    (show ((ofPolicy .nearest).withStrict false).finishes 5 hoping broken = true by
      decide +kernel)
  have hp : ∃ p ∈ res.problems, p.artifact.optional = false := by
    rw [(reaches_of_resolve h).1]
    decide +kernel
  obtain ⟨hok, -, hnone⟩ := strict_only_refuses (ofPolicy .nearest) 5 hoping broken
  refine ⟨⟨res, h, hp⟩, ?_, ?_⟩
  · generalize ((ofPolicy .nearest).withStrict false).resolve 5 hoping broken = lax,
      ((ofPolicy .nearest).withStrict true).resolve 5 hoping broken = run at h hok hnone ⊢
    obtain ⟨e | ⟨_ | res'⟩, r⟩ := run
    · exact ⟨e, rfl⟩
    · rw [hnone rfl] at h
      cases h
    · obtain ⟨rfl, hlenient⟩ := (hok res' r).mp rfl
      cases h
      obtain ⟨p, hp, hnot⟩ := hp
      rw [hlenient p hp] at hnot
      cases hnot
  · obtain ⟨res, h⟩ := finishes_iff.mp
      (show ((ofPolicy .nearest).withStrict false).finishes 5 hoping (shelf [("a", "1", [])]) =
        true by decide +kernel)
    have hp : res.problems.length = 1 ∧ ∀ p ∈ res.problems, p.artifact.optional = true := by
      rw [(reaches_of_resolve h).1]
      decide +kernel
    obtain ⟨hok, -⟩ := strict_only_refuses (ofPolicy .nearest) 5 hoping (shelf [("a", "1", [])])
    generalize ((ofPolicy .nearest).withStrict false).resolve 5 hoping (shelf [("a", "1", [])]) =
      lax, ((ofPolicy .nearest).withStrict true).resolve 5 hoping (shelf [("a", "1", [])]) = run
      at h hok ⊢
    obtain ⟨x, r⟩ := lax
    obtain rfl : x = .ok (some res) := h
    exact ⟨res, congrArg Prod.fst ((hok res r).mpr ⟨rfl, hp.2⟩), hp.1⟩

end Mediation.Resolver
