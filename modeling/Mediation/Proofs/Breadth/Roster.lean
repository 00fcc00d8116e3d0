import Mathlib.Data.Set.Card
import Mathlib.Logic.Relation
import Mediation.Proofs.Resolution.Terms

/-! # Plain breadth-first mediation

Dependencies wait in a queue. One after the other is met: it is dropped if it closes a cycle or
its identity was kept before, and is kept otherwise, with its own dependencies at the end of the
queue. What is kept depends on nothing but what is told of the artifacts, and this comes to an
end if there are finitely many identities.
-/

namespace Mediation

open Relation

/-- A dependency on some path: what it was declared as, the coordinates from the root to what
declares it, and what the artifacts of the path pin, the nearest one first. -/
structure Encounter where
  coordinate : Coordinate
  constraint : Constraint
  scope : Scope
  exclusions : List Exclusion
  path : Trail
  pinned : List Management

namespace Encounter

def key (e : Encounter) : Key := e.coordinate.key

def version (e : Encounter) : Option Version := e.constraint.recommended

/-- What is pinned for an identity below an artifact: by the request, by the artifact itself, or
by the nearest artifact of its path. -/
def pin? (pins : Management) (e : Encounter) (d : Descriptor) (k : Key) : Option Pin :=
  (pins.get? k).or ((d.management :: e.pinned).findSome? (·.get? k))

/-- What becomes of a dependency that an artifact declares: nothing, if it is optional, excluded
by the path, or in a scope that does not propagate. -/
def survivor? (pins : Management) (e : Encounter) (d : Descriptor) (x : Dependency) :
    Option Encounter :=
  if x.optional || e.exclusions.any (·.excludes x.coordinate.key) then none
  else
    let x := (e.pin? pins d x.coordinate.key).elim x x.pinned
    (e.scope.inherit x.scope).map fun scope =>
      ⟨x.coordinate, x.constraint, scope, e.exclusions ++ x.exclusions,
        e.path ++ [e.coordinate], d.management :: e.pinned⟩

def survivors (pins : Management) (e : Encounter) (d : Descriptor) : List Encounter :=
  d.dependencies.filterMap (e.survivor? pins d)

end Encounter

def Request.direct (q : Request) : List Encounter :=
  q.dependencies.map fun x => ⟨x.coordinate, x.constraint, x.scope, x.exclusions, [q.root], []⟩

structure Roster where
  queue : List Encounter
  kept : List Encounter

namespace Roster

variable {pins : Management} {tells : Coordinate → Option Version → Descriptor → Prop}
  {e : Encounter} {es kept : List Encounter} {a b : Roster} {keys : Set Key}

/-- Whether an encounter closes a cycle, or comes too late for its identity. -/
def Drops (kept : List Encounter) (e : Encounter) : Prop :=
  e.coordinate ∈ e.path ∨ ∃ f ∈ kept, f.key = e.key

inductive Pops (pins : Management) (tells : Coordinate → Option Version → Descriptor → Prop) :
    Roster → Roster → Prop
  | drop {e : Encounter} {es kept : List Encounter} (h : Drops kept e) :
      Pops pins tells ⟨e :: es, kept⟩ ⟨es, kept⟩
  | keep {e : Encounter} {es kept : List Encounter} {d : Descriptor} (h : ¬ Drops kept e)
      (hd : tells e.coordinate e.version d) :
      Pops pins tells ⟨e :: es, kept⟩ ⟨es ++ e.survivors pins d, kept ++ [e]⟩

theorem pops_drops {es' : List Encounter} (h : ∀ e ∈ es, Drops kept e) :
    ReflTransGen (Pops pins tells) ⟨es ++ es', kept⟩ ⟨es', kept⟩ := by
  induction es with
  | nil => exact .refl
  | cons e es ih =>
    exact .head (.drop (h e (List.mem_cons_self ..)))
      (ih fun f hf => h f (List.mem_cons_of_mem _ hf))

theorem Pops.unique (ht : ∀ c v d d', tells c v d → tells c v d' → d = d') {b' : Roster}
    (h : Pops pins tells a b) (h' : Pops pins tells a b') : b = b' := by
  cases h with
  | drop h =>
    cases h' with
    | drop _ => rfl
    | keep h' _ => exact absurd h h'
  | keep h hd =>
    cases h' with
    | drop h' => exact absurd h' h
    | keep _ hd' => rw [ht _ _ _ _ hd hd']

/-- Where one descriptor is told for each coordinate and version, only one list can be kept. -/
theorem kept_unique (ht : ∀ c v d d', tells c v d → tells c v d' → d = d')
    {kept' : List Encounter} (h : ReflTransGen (Pops pins tells) a ⟨[], kept⟩)
    (h' : ReflTransGen (Pops pins tells) a ⟨[], kept'⟩) : kept = kept' := by
  have hend {k : List Encounter} {b : Roster} (h : ReflTransGen (Pops pins tells) ⟨[], k⟩ b) :
      b = ⟨[], k⟩ := by
    rcases h.cases_head with h | ⟨c, h, -⟩
    · exact h.symm
    · cases h
  have hu : Relator.RightUnique (Pops pins tells) := fun _ _ _ h h' => h.unique ht h'
  rcases ReflTransGen.total_of_right_unique hu h h' with h | h
  · exact (congrArg Roster.kept (hend h)).symm
  · exact congrArg Roster.kept (hend h)

/-- Whether a roster is about certain identities, and keeps each of them once. -/
structure Within (keys : Set Key) (a : Roster) : Prop where
  queue : ∀ e ∈ a.queue, e.key ∈ keys
  kept : ∀ e ∈ a.kept, e.key ∈ keys
  nodup : (a.kept.map Encounter.key).Nodup

theorem key_of_survivor {d : Descriptor} {f : Encounter} (h : f ∈ e.survivors pins d) :
    ∃ x ∈ d.dependencies, x.coordinate.key = f.key := by
  obtain ⟨x, hx, h⟩ := List.mem_filterMap.mp h
  refine ⟨x, hx, ?_⟩
  unfold Encounter.survivor? at h
  split at h
  · cases h
  · obtain ⟨scope, -, rfl⟩ := Option.map_eq_some_iff.mp h
    cases e.pin? pins d x.coordinate.key <;> rfl

theorem Within.pops (h : a.Within keys) (hp : Pops pins tells a b)
    (ht : ∀ c v d, tells c v d → ∀ x ∈ d.dependencies, x.coordinate.key ∈ keys) :
    b.Within keys := by
  cases hp with
  | drop _ => exact ⟨fun e he => h.queue e (List.mem_cons_of_mem _ he), h.kept, h.nodup⟩
  | @keep e es kept d hn hd =>
    have he := h.queue e (List.mem_cons_self ..)
    refine ⟨fun f hf => ?_, fun f hf => ?_, ?_⟩
    · rcases List.mem_append.mp hf with hf | hf
      · exact h.queue f (List.mem_cons_of_mem _ hf)
      · obtain ⟨x, hx, hk⟩ := key_of_survivor hf
        exact hk ▸ ht _ _ _ hd x hx
    · rcases List.mem_append.mp hf with hf | hf
      · exact h.kept f hf
      · exact List.mem_singleton.mp hf ▸ he
    · rw [List.map_append, List.map_singleton]
      refine h.nodup.append (List.nodup_singleton _) fun k hk hm => hn (.inr ?_)
      obtain ⟨f, hf, hfk⟩ := List.mem_map.mp hk
      exact ⟨f, hf, hfk.trans (List.mem_singleton.mp hm)⟩

theorem Within.chain (h : a.Within keys) (hp : ReflTransGen (Pops pins tells) a b)
    (ht : ∀ c v d, tells c v d → ∀ x ∈ d.dependencies, x.coordinate.key ∈ keys) :
    b.Within keys := by
  induction hp with
  | refl => exact h
  | tail _ hp ih => exact ih.pops hp ht

theorem Within.length_le (h : a.Within keys) (hf : keys.Finite) : a.kept.length ≤ keys.ncard := by
  have hsub : ((a.kept.map Encounter.key).toFinset : Set Key) ⊆ keys := by
    intro k hk
    obtain ⟨e, he, rfl⟩ := List.mem_map.mp (List.mem_toFinset.mp hk)
    exact h.kept e he
  calc a.kept.length = (a.kept.map Encounter.key).toFinset.card := by
        rw [List.toFinset_card_of_nodup h.nodup, List.length_map]
    _ = ((a.kept.map Encounter.key).toFinset : Set Key).ncard := (Set.ncard_coe_finset _).symm
    _ ≤ keys.ncard := Set.ncard_le_ncard hsub hf

end Roster

end Mediation
