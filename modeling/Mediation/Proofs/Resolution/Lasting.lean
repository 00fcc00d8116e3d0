import Mediation.Proofs.Collection.Origin
import Mediation.Proofs.Resolution.Chase
import Mediation.Proofs.Run.History

/-! # What lasts through a resolution

A property of collections that every move and every expansion keeps holds wherever a resolution
gets, if it holds of the root alone.
-/

namespace Mediation

theorem Collection.Sound.inPlay_of_visible {s : Collection} {i : ℕ} (h : s.Sound)
    (hi : i ∈ s.graph.visible) (hr : i ≠ Graph.root)
    (hc : (s.node i).state ≠ .omittedForCycle) : s.InPlay i := by
  obtain ⟨p, hp, hm, hpar⟩ := h.parent_of_visible hi hr
  exact ⟨(h.attached p i hp hm).resolve_right hc, p, hpar, hp⟩

theorem Collection.agrees_clear (s : Collection) : s.Agrees { s with requeue := [] } :=
  ⟨rfl, rfl, fun _ => rfl⟩

namespace Resolver

open Collection

variable {σ : Type} {resolver : Resolver σ} {q : Request} {st : σ} {I : Collection → Prop}

/-- Whether a property holds at the start of a resolution, and is kept by all that may happen. -/
structure Lasts (resolver : Resolver σ) (q : Request) (st : σ) (I : Collection → Prop) :
    Prop where
  start : I (Collection.start q.root q.version q.management)
  clear : ∀ {s : Collection}, I s → I { s with requeue := [] }
  move : ∀ {x : ℕ} {a b : Situation},
    Move (resolver.session q).rules (Run.told (resolver.session q) st) x a b → Steady a →
      I a.1 → I b.1
  expand : ∀ {s : Collection} {x : ℕ} {d : Descriptor}, s.Sound → I s →
    (s.node x).state = .included → resolver.Declares q st d →
      I (s.expand (resolver.session q).rules x d).2

namespace Lasts

variable (h : resolver.Lasts q st I)
include h

theorem moves {x : ℕ} {a b : Situation}
    (m : Moves (resolver.session q).rules (Run.told (resolver.session q) st) x a b)
    (hs : Steady a) (hi : I a.1) : I b.1 :=
  m.preserve_of_steady (P := fun b => I b.1) hs (fun _ _ m hb hi => h.move m hb hi) hi

theorem reaches {stage : Run.Stage} {r : Run σ} (hr : resolver.Reaches q st stage r) :
    I r.collection := by
  have key : I (Run.Point.collection (stage, r)) := reaches_induct (P := fun a => I a.collection)
    (h.expand (steady_start _ _ _).sound h.start (steady_start _ _ _).sound.root_included
      (.inl rfl))
    (fun a b ha _ hab hi => by
      have hs := steady_of_reaches ha
      cases hab with
      | rests hc => exact hc ▸ hi
      | clears hc => exact hc ▸ h.clear hi
      | moves hm => exact h.moves hm hs hi
      | expands hx hd hc =>
        exact hc ▸ h.expand hs.sound hi hx.2 (.inr ⟨_, _, hd.describes _ rfl⟩)) hr
  exact key

theorem of_resolve {fuel : ℕ} {res : Resolution}
    (hr : (resolver.resolve fuel q st).1 = .ok (some res)) :
    I (resolver.resolve fuel q st).2.collection := by
  obtain ⟨-, -, hr⟩ := reaches_of_resolve hr
  exact h.reaches hr

end Lasts

theorem exists_of_resolve {fuel : ℕ} {res : Resolution}
    (h : (resolver.resolve fuel q st).1 = .ok (some res)) :
    ∃ s : Collection, s.graph = res.graph ∧ Steady (s, []) ∧ ∀ I, resolver.Lasts q st I → I s := by
  obtain ⟨hp, -, hg⟩ := poised_of_resolve h
  exact ⟨_, hg.symm, hp.steady, fun I hI => hI.of_resolve h⟩

theorem lasts_complies {P : Constraint → Prop}
    (h : ∀ d, resolver.Declares q st d → ∀ c ∈ d.constraints, P c) :
    resolver.Lasts q st (Complies P) where
  start := by
    refine ⟨fun j hr hj => absurd (Nat.lt_one_iff.mp hj) hr, fun i k pin c hk hv => ?_⟩
    by_cases hi : i = Graph.root
    · subst hi
      exact h q.descriptor (.inl rfl) c (Descriptor.mem_constraints_of_pin hk hv)
    · have hsize : (Collection.start q.root q.version q.management).graph.size ≤ i :=
        Nat.one_le_iff_ne_zero.mpr hi
      rw [node_of_size_le hsize] at hk
      cases hk
  clear hi := hi.of_fades (E := ∅) (.of_agrees (agrees_clear _))
  move m hs hi := by
    obtain ⟨E, hf⟩ := m.fades hs
    exact hi.of_fades hf
  expand {s x d} _ hi hx hd := by
    have hsize : x < s.graph.size := Graph.lt_size_of_isIncluded (isIncluded_iff.mpr hx)
    refine hi.expand hsize (fun k pin c hk hv => ?_)
      (fun e he => h d hd _ (Descriptor.mem_constraints_of_dependency he))
      fun k pin c hk hv => h d hd c (Descriptor.mem_constraints_of_pin hk hv)
    exact h q.descriptor (.inl rfl) c (Descriptor.mem_constraints_of_pin hk hv)

end Resolver

end Mediation
