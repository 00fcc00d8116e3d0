import Mediation.Proofs.Run.Course

/-! # From the start to the end of a run

The invariant holds wherever a run gets from its first level, and a run that is told to
have nothing left to do ends at a level without nodes and without expansions to make.
-/

namespace Mediation

namespace Run

open Collection

variable {σ : Type} {session : Session σ} {st : σ} {r r₀ r' : Run σ} {ids level : List NodeId}

theorem holds_of_reaches {stage : Stage} (h₀ : Holds session st (.level level) r₀)
    (h : Reaches session level r₀ stage r) : Holds session st stage r := by
  induction h with
  | start => exact h₀
  | select _ _ hs ih => exact holds_select ih hs
  | register _ hs ih => exact holds_register ih hs
  | fetch _ hs ih => exact holds_fetch ih hs
  | describe _ hs ih => exact holds_describe ih hs
  | next _ ih => exact holds_next ih

theorem reaches_registerAll {rest : List (NodeId × Except NodeError Version)} {u : Unit}
    (h : Reaches session level r₀ (.registering rest ids) r)
    (hs : registerAll session rest r = .ok u r') :
    Reaches session level r₀ (.registering [] ids) r' := by
  induction rest generalizing r with
  | nil =>
    obtain ⟨-, rfl⟩ := pure_eq_ok.mp hs
    exact h
  | cons p rest ih =>
    obtain ⟨x, v⟩ := p
    obtain ⟨_, r₁, h₁, hs⟩ := bind_eq_ok.mp hs
    exact ih (.register h h₁) hs

theorem reaches_describeAll {rest : List (NodeId × SourceAnswer Descriptor)}
    {created next : List NodeId} (h : Reaches session level r₀ (.describing rest created) r)
    (hs : describeAll session rest r = .ok next r') :
    Reaches session level r₀ (.describing [] (created ++ next)) r' := by
  induction rest generalizing r created next with
  | nil =>
    obtain ⟨rfl, rfl⟩ := pure_eq_ok.mp hs
    rw [List.append_nil]
    exact h
  | cons p rest ih =>
    obtain ⟨x, d⟩ := p
    obtain ⟨ids, r₁, h₁, hs⟩ := bind_eq_ok.mp hs
    obtain ⟨others, r₂, h₂, hs⟩ := bind_eq_ok.mp hs
    obtain ⟨rfl, rfl⟩ := pure_eq_ok.mp hs
    rw [← List.append_assoc]
    exact ih (.describe h h₁) h₂

theorem reaches_round {next : List NodeId} (h : Reaches session level r₀ (.level ids) r)
    (hn : r.isSettled ids = false) (hs : round session ids r = .ok next r') :
    Reaches session level r₀ (.level next) r' := by
  unfold round at hs
  obtain ⟨rest, r₁, h₁, hs⟩ := bind_eq_ok.mp hs
  obtain ⟨_, r₂, h₂, hs⟩ := bind_eq_ok.mp hs
  obtain ⟨ds, r₃, h₃, hs⟩ := bind_eq_ok.mp hs
  have hr := reaches_registerAll (.select h hn h₁) h₂
  exact .next (reaches_describeAll (.fetch hr h₃) hs)

theorem reaches_rounds {n : ℕ} {b : Bool} (h : Reaches session level r₀ (.level ids) r)
    (hs : rounds session n ids r = .ok b r') :
    ∃ ids', Reaches session level r₀ (.level ids') r' ∧ r'.isSettled ids' = b := by
  induction n generalizing ids r with
  | zero =>
    cases hs
    exact ⟨ids, h, rfl⟩
  | succ n ih =>
    unfold rounds at hs
    obtain ⟨_, _, hg, hs⟩ := bind_eq_ok.mp hs
    cases hg
    split at hs
    · rename_i hset
      cases hs
      exact ⟨ids, h, hset⟩
    · rename_i hset
      obtain ⟨next, r₁, h₁, hs⟩ := bind_eq_ok.mp hs
      exact ih (reaches_round h (Bool.eq_false_iff.mpr hset) h₁) hs

end Run

namespace Collection

/-- The collection that a resolution starts from is steady, with nothing but the root. -/
theorem steady_start (root : Coordinate) (v : Version) (pins : Management) :
    Steady (start root v pins, []) := by
  have hsize : (start root v pins).graph.size = 1 := rfl
  have hroot {i : ℕ} (hi : i ≠ Graph.root) : (start root v pins).node i = default :=
    node_of_size_le (by rw [hsize]; exact Nat.one_le_iff_ne_zero.mpr hi)
  have hlt {i : ℕ} (hi : i < (start root v pins).graph.size) : i = Graph.root := by
    rw [hsize] at hi
    exact Nat.lt_one_iff.mp hi
  have hchildren (i : ℕ) : ((start root v pins).node i).children = [] := by
    by_cases hi : i = Graph.root
    · subst hi; rfl
    · rw [hroot hi]; rfl
  have hparent (i : ℕ) : ((start root v pins).node i).parent = none := by
    by_cases hi : i = Graph.root
    · subst hi; rfl
    · rw [hroot hi]; rfl
  have hstate {i : ℕ} (hi : i ≠ Graph.root) : ((start root v pins).node i).state = .failed := by
    rw [hroot hi]; rfl
  have htree : (start root v pins).graph.IsTree := {
    size_pos := Nat.one_pos
    id_eq i hi := by
      rw [hlt hi]
      rfl
    parent_root := rfl
    depth_root := rfl
    trail_root := rfl
    parent_lt i hi hr := absurd (hlt hi) hr
    depth_eq i p hp := nomatch (hparent i).symm.trans hp
    trail_eq i p hp := nomatch (hparent i).symm.trans hp
    child p c hc := by
      rw [children_eq, hchildren] at hc
      cases hc
    children_nodup p := by
      rw [children_eq, hchildren]
      exact List.nodup_nil }
  have hsound : (start root v pins).Sound := {
    tree := htree
    root_included := rfl
    fresh i _ := hchildren i
    resolved i hi := by
      by_cases hr : i = Graph.root
      · subst hr
        rfl
      · rw [hroot hr] at hi
        cases hi
    idle i hi := by
      by_cases hr : i = Graph.root
      · subst hr
        rfl
      · rw [hroot hr]
        rfl
    contender := nofun
    live i hr hi := by
      rw [hstate hr] at hi
      exact absurd hi (by decide)
    unique i j hr _ hi := by
      rw [hstate hr] at hi
      cases hi
    attached p c _ hc := by
      rw [hchildren] at hc
      cases hc
    versioned i hr hi := by
      rw [hstate hr] at hi
      cases hi
    settled p c _ hc := by
      rw [hchildren] at hc
      cases hc }
  exact ⟨hsound, nofun⟩

end Collection

namespace Resolver

open Run

variable {σ : Type} {resolver : Resolver σ} {q : Request} {st : σ}

def Reaches (resolver : Resolver σ) (q : Request) (st : σ) (stage : Stage) (r : Run σ) : Prop :=
  Run.Reaches (resolver.session q) (resolver.start q st).1 (resolver.start q st).2 stage r

theorem holds_start (resolver : Resolver σ) (q : Request) (st : σ) :
    Holds (resolver.session q) st (.level (resolver.start q st).1) (resolver.start q st).2 := by
  have hs := Collection.steady_start q.root q.version q.management
  have hroot : Graph.root < (Collection.start q.root q.version q.management).graph.size :=
    Nat.one_pos
  have hnone {j : ℕ} (hj : j < (Collection.start q.root q.version q.management).graph.size) :
      ((Collection.start q.root q.version q.management).node j).state ≠ .pending := by
    obtain rfl : j = Graph.root := Nat.lt_one_iff.mp hj
    exact nofun
  have hexpanded : ((resolver.start q st).2.collection.node Graph.root).expanded = true :=
    (Collection.expanded_expand hroot _ hroot).trans rfl
  exact {
    steady := hs.expand hs.sound.root_included _
    later := .refl
    opened := hexpanded
    blank _ := Collection.blank_expand hroot _ fun j hj =>
      absurd hj (hnone (Graph.lt_size_of_state (by rw [← Collection.node, hj]; decide)))
    pending j hj := by
      obtain ⟨hjs, hp⟩ | hc := Collection.pending_expand hroot _ hj
      · exact absurd hp (hnone hjs)
      · exact hc
    order := (Collection.InOrder.nil _).expand hroot _
    waiting j hj he := by
      obtain ⟨hjs, -⟩ := Collection.included_expand hroot _ hj
      obtain rfl : j = Graph.root := Nat.lt_one_iff.mp hjs
      rw [hexpanded] at he
      cases he
    candid :=
      (Collection.isCandid_start q.root q.version q.management).expand hs.sound hroot _ }

theorem holds_of_reaches {stage : Stage} {r : Run σ} (h : resolver.Reaches q st stage r) :
    Holds (resolver.session q) st stage r :=
  Run.holds_of_reaches (resolver.holds_start q st) h

theorem poised_of_reaches {stage : Stage} {r : Run σ} (h : resolver.Reaches q st stage r) :
    ∃ queue waiting, Poised (resolver.session q) st queue waiting r := by
  have hh := holds_of_reaches h
  cases stage with
  | level _ => exact ⟨_, _, hh⟩
  | registering _ _ => exact ⟨_, _, hh.1⟩
  | describing _ _ => exact ⟨_, _, hh.1⟩

theorem steady_of_reaches {stage : Stage} {r : Run σ} (h : resolver.Reaches q st stage r) :
    Collection.Steady (r.collection, []) :=
  have ⟨_, _, hp⟩ := poised_of_reaches h
  hp.steady

theorem resolve_eq (resolver : Resolver σ) (fuel : ℕ) (q : Request) (st : σ) :
    resolver.resolve fuel q st =
      match rounds (resolver.session q) fuel (resolver.start q st).1 (resolver.start q st).2 with
      | .ok true run => (.ok (some (.ofRun run)), run)
      | .ok false run => (.ok none, run)
      | .error e run => (.error e, run) := rfl

/-- A resolution is what a run ends with at a level where nothing is left to do. -/
theorem reaches_of_resolve {fuel : ℕ} {res : Resolution}
    (h : (resolver.resolve fuel q st).1 = .ok (some res)) :
    res = .ofRun (resolver.resolve fuel q st).2 ∧
      (resolver.resolve fuel q st).2.collection.requeue = [] ∧
      resolver.Reaches q st (.level []) (resolver.resolve fuel q st).2 := by
  rw [resolve_eq] at h ⊢
  cases hr : rounds (resolver.session q) fuel (resolver.start q st).1 (resolver.start q st).2 with
  | error e r =>
    rw [hr] at h
    cases h
  | ok b r =>
    rw [hr] at h
    cases b with
    | false => cases h
    | true =>
      obtain ⟨ids, hreach, hset⟩ := reaches_rounds .start hr
      simp only [isSettled, Bool.and_eq_true, List.isEmpty_iff] at hset
      obtain ⟨rfl, hq⟩ := hset
      cases h
      exact ⟨rfl, hq, hreach⟩

def finishes (resolver : Resolver σ) (fuel : ℕ) (q : Request) (st : σ) : Bool :=
  match (resolver.resolve fuel q st).1 with
  | .ok (some _) => true
  | _ => false

theorem finishes_iff {fuel : ℕ} : resolver.finishes fuel q st = true ↔
    ∃ res, (resolver.resolve fuel q st).1 = .ok (some res) := by
  unfold finishes
  split
  · rename_i res h
    exact iff_of_true rfl ⟨res, h⟩
  · rename_i h
    exact iff_of_false nofun fun ⟨res, hr⟩ => h res hr

end Resolver

end Mediation
