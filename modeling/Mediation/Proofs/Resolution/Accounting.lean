import Mathlib
import Mediation.Proofs.Resolution.Winners

/-! # The requests of a run

A run counts the requests it sends apart from sending them: it predicts which selections will ask
the source. The prediction is right, so the count grows by as much as the source serves.
-/

namespace Mediation

variable {σ ι α β : Type} {served : σ → ℕ}

/-- Whether a number of a source's state counts the answers it gave. -/
structure Source.IsTally (src : Source σ) (served : σ → ℕ) : Prop where
  retrieve : ∀ a st, served (src.retrieve a st).2 = served st + 1
  versions : ∀ c st, served (src.versions c st).2 = served st + 1
  concretize : ∀ a st, served (src.concretize a st).2 = served st + 1

namespace Inquiry

def Costs (served : σ → ℕ) (q : Inquiry σ α) (n : ℕ) : Prop :=
  ∀ st, served (q.ask st).2 = served st + n

theorem bounded_of_le {limit : Option ℕ} {q : Inquiry σ (SourceAnswer α)}
    (h : ∀ l ∈ limit, q.delay ≤ l) (c : Coordinate) : bounded limit c q = q := by
  cases limit with
  | none => rfl
  | some l => exact if_neg (Nat.not_lt.mpr (h l rfl))

theorem served_askInTime {inTime : ℕ → Bool} {qs : List (Inquiry σ α)} {costs times : List ℕ}
    (hq : List.Forall₂ (Costs served) qs costs) (hl : times.length = qs.length)
    (ht : times.all inTime = true) (st : σ) :
    served (askInTime inTime (qs.zip times) st).2 = served st + costs.sum := by
  induction hq generalizing times st with
  | nil => rfl
  | @cons q n qs costs hq _ ih =>
    obtain _ | ⟨t, times⟩ := times
    · cases hl
    rw [List.all_cons, Bool.and_eq_true] at ht
    have hrest := ih (Nat.succ.inj hl) ht.2 (q.ask st).2
    rw [hq] at hrest
    simp only [List.zip_cons_cons, askInTime, ht.1, if_true, List.sum_cons, hrest]
    omega

end Inquiry

namespace Source

variable {src : Source σ} {limit : Option ℕ}

theorem costs_selection (h : src.IsTally served) (hl : ∀ l ∈ limit, src.latency ≤ l)
    (a : Artifact) (c : Constraint) :
    (src.selection limit a c).Costs served (if c.needsSource then 1 else 0) := by
  intro st
  unfold selection Constraint.needsSource
  cases c.recommended with
  | none =>
    rw [Inquiry.bounded_of_le hl]
    exact h.versions a.coordinate st
  | some v =>
    simp only [Option.all_some]
    split
    · rw [Inquiry.bounded_of_le fun l _ => Nat.zero_le l]
      exact h.concretize _ st
    · rfl

theorem costs_description (h : src.IsTally served) (hl : ∀ l ∈ limit, src.latency ≤ l)
    (a : Artifact) : (src.description limit a).Costs served 1 := by
  unfold description
  rw [Inquiry.bounded_of_le hl]
  exact h.retrieve a

end Source

namespace Run

/-- Whether a step, apart from requests that are both served and counted, has the source serve
so many requests and counts so many. -/
def Books (served : σ → ℕ) (asked counted : ℕ) (x : RunM σ α) : Prop :=
  ∀ r a r', x r = .ok a r' →
    served r'.source + r.fetches + counted = served r.source + r'.fetches + asked

/-- Whether a step counts as many requests as it has the source serve. -/
abbrev Balances (served : σ → ℕ) (x : RunM σ α) : Prop := Books served 0 0 x

namespace Books

variable {n m k l : ℕ}

theorem pure (a : α) : Balances served (Pure.pure a : RunM σ α) := by
  intro r b r' h
  obtain ⟨-, rfl⟩ := pure_eq_ok.mp h
  rfl

theorem bind {x : RunM σ α} {f : α → RunM σ β} (hx : Books served n k x)
    (hf : ∀ a, Books served m l (f a)) : Books served (n + m) (k + l) (x >>= f) := by
  intro r b r' h
  obtain ⟨a, r₁, h₁, h₂⟩ := bind_eq_ok.mp h
  have hfirst := hx r a r₁ h₁
  have hsecond := hf a r₁ b r' h₂
  omega

theorem head {x : RunM σ α} {f : α → RunM σ β} (hx : Balances served x)
    (hf : ∀ a, Books served n k (f a)) : Books served n k (x >>= f) := by
  have h := hx.bind hf
  rwa [Nat.zero_add, Nat.zero_add] at h

theorem tail {x : RunM σ α} {f : α → RunM σ β} (hx : Books served n k x)
    (hf : ∀ a, Balances served (f a)) : Books served n k (x >>= f) := hx.bind hf

theorem settle {x : RunM σ α} {f : α → RunM σ β} (hx : Books served n k x)
    (hf : ∀ a, Books served k n (f a)) : Balances served (x >>= f) := by
  intro r b r' h
  have hsum := hx.bind hf r b r' h
  omega

theorem get : Balances served (MonadState.get : RunM σ (Run σ)) := by
  rintro r _ _ ⟨⟩
  rfl

theorem collected : Balances served (Run.collected : RunM σ Collection) := by
  rintro r _ _ ⟨⟩
  rfl

theorem alter (f : Collection → Collection) : Balances served (Run.alter f) := by
  rintro r _ _ ⟨⟩
  rfl

theorem count (n : ℕ) : Books served 0 n (Run.count n) := by
  rintro r _ _ ⟨⟩
  exact Nat.add_assoc _ _ _

theorem lift (step : Step α) : Balances served (Run.lift step) := by
  intro r a r' h
  unfold Run.lift at h
  cases hs : step r.collection <;> rw [hs] at h <;> cases h
  rfl

theorem ask {limits : Limits} {q : Inquiry σ α} (hq : q.Costs served n) :
    Books served n 0 (Run.ask limits q) := by
  intro r a r' h
  obtain ⟨_, _, hg, h⟩ := bind_eq_ok.mp h
  cases hg
  dsimp only at h
  split at h
  · cases h
    change served (q.ask r.source).2 + r.fetches + 0 = served r.source + r.fetches + n
    rw [hq]
    omega
  · cases h

theorem askAll {limits : Limits} {qs : List (Inquiry σ α)} {costs : List ℕ}
    (hq : List.Forall₂ (Inquiry.Costs served) qs costs) :
    Books served costs.sum 0 (Run.askAll limits qs) := by
  intro r as r' h
  obtain ⟨_, _, hg, h⟩ := bind_eq_ok.mp h
  cases hg
  dsimp only at h
  obtain ⟨_, _, hs, h⟩ := bind_eq_ok.mp h
  cases hs
  split at h
  · rename_i hall
    cases h
    have hs := Inquiry.served_askInTime hq
      ((length_answerTimes _ _ _ _).trans (List.length_map _)) hall r.source
    dsimp only
    omega
  · cases h

theorem askAll_map (limits : Limits) {q : ι → Inquiry σ α} {cost : ι → ℕ} (ids : List ι)
    (hq : ∀ i, (q i).Costs served (cost i)) :
    Books served (ids.map cost).sum 0 (Run.askAll limits (ids.map q)) := by
  apply askAll
  rw [List.forall₂_map_left_iff, List.forall₂_map_right_iff, List.forall₂_same]
  exact fun i _ => hq i

end Books

variable {session : Session σ}

/-- Whether the source counts its answers and is given the time to answer. -/
structure IsServed (session : Session σ) (served : σ → ℕ) : Prop where
  tally : session.source.IsTally served
  patient : ∀ l ∈ session.limits.fetch, session.source.latency ≤ l

theorem sum_map_ite_eq_countP (p : ι → Bool) (ids : List ι) :
    (ids.map fun i => if p i then 1 else 0).sum = ids.countP p := by
  induction ids with
  | nil => rfl
  | cons i ids ih =>
    rw [List.map_cons, List.sum_cons, ih, List.countP_cons, Nat.add_comm]

namespace IsServed

variable (h : IsServed session served)
include h

theorem reselect (id : NodeId) (c : Constraint) : Balances served (reselect session id c) := by
  refine Books.head .collected fun s => ?_
  dsimp only
  split
  · exact .pure _
  · have hask := Source.costs_selection h.tally h.patient (s.node id).artifact c
    exact Books.settle (.count _) fun _ => Books.tail (.ask hask) fun _ => .pure _

theorem selectAll (level : List NodeId) : Balances served (selectAll session level) := by
  refine Books.head .collected fun s => ?_
  have hask := Books.askAll_map session.limits
    (level.filter fun id => (s.node id).state == .pending)
    fun id => Source.costs_selection h.tally h.patient (s.node id).artifact (s.node id).constraint
  rw [sum_map_ite_eq_countP] at hask
  exact Books.settle hask fun _ => Books.tail (.count _) fun _ => .pure _

theorem fetchAll (level : List NodeId) : Balances served (fetchAll session level) := by
  refine Books.head .collected fun s => Books.head (.alter _) fun _ => ?_
  have hask := Books.askAll_map session.limits (expandable s level)
    fun id => Source.costs_description h.tally h.patient (s.node id).artifact
  rw [List.map_const', List.sum_replicate_nat, Nat.mul_one] at hask
  exact Books.settle (.count _) fun _ => Books.tail hask fun _ => .pure _

theorem follow (current : NodeId) (c : Constraint) :
    Balances served (follow session current c) := by
  refine Books.head (.alter _) fun _ => Books.head (h.reselect current c) ?_
  rintro (e | _ | v)
  · exact .lift _
  · exact .pure _
  · exact .lift _

theorem narrow (current newcomer : NodeId) (c : Constraint) (e : Event) :
    Balances served (narrow session current newcomer c e) := by
  refine Books.head (.alter _) fun _ => Books.head (.alter _) fun _ =>
    Books.head (h.reselect newcomer c) ?_
  rintro (e | choice)
  · exact .lift _
  · exact Books.head (.alter _) fun _ => h.follow current c

theorem restrict (current newcomer : NodeId) :
    Balances served (restrict session current newcomer) := by
  rw [restrict_eq]
  refine Books.head .collected fun s => ?_
  split
  · exact .pure _
  · cases (s.node current).constraint.intersect (s.node newcomer).constraint with
    | error e => exact .lift _
    | ok c => exact h.narrow current newcomer c _

theorem confront (id : NodeId) (k : Key) : Balances served (confront session id k) := by
  have hsettle : Balances served (do
      if ((← Run.collected).node id).state = .pending then
        Run.lift (Collection.settle session.rules id) : RunM σ Unit) := by
    refine Books.head .collected fun s => ?_
    split
    · exact .lift _
    · exact .pure _
  refine Books.head .collected fun s => ?_
  cases s.winner? k with
  | none => exact hsettle
  | some current => exact Books.head (h.restrict current id) fun _ => hsettle

theorem register (id : NodeId) (selection : Except NodeError Version) :
    Balances served (register session id selection) := by
  rw [register_eq]
  refine Books.head .collected fun s => ?_
  split
  · exact .pure _
  · cases selection with
    | error e => exact .lift _
    | ok v =>
      refine Books.head (.alter _) fun _ => Books.head .collected fun s => ?_
      split
      · exact Books.head (.alter _) fun _ => h.confront id _
      · exact h.confront id _

theorem registerAll (rest : List (NodeId × Except NodeError Version)) :
    Balances served (registerAll session rest) := by
  induction rest with
  | nil => exact .pure _
  | cons p rest ih => exact Books.head (h.register p.1 p.2) fun _ => ih

end IsServed

theorem Books.describe (id : NodeId) (d : SourceAnswer Descriptor) :
    Balances served (describe session id d) := by
  refine Books.head .collected fun s => ?_
  split
  · exact .pure _
  · cases d with
    | error e => exact Books.head (.lift _) fun _ => .pure _
    | ok d => exact Books.head (.alter _) fun _ => .pure _

theorem Books.describeAll (rest : List (NodeId × SourceAnswer Descriptor)) :
    Balances served (describeAll session rest) := by
  induction rest with
  | nil => exact .pure _
  | cons p rest ih => exact Books.head (.describe p.1 p.2) fun _ => Books.head ih fun _ => .pure _

namespace IsServed

variable (h : IsServed session served)
include h

theorem round (level : List NodeId) : Balances served (round session level) :=
  Books.head (h.selectAll level) fun selections =>
    Books.head (h.registerAll selections) fun _ =>
      Books.head (h.fetchAll level) fun descriptors => .describeAll descriptors

theorem rounds (n : ℕ) (level : List NodeId) : Balances served (rounds session n level) := by
  induction n generalizing level with
  | zero => exact Books.head .get fun _ => .pure _
  | succ n ih =>
    refine Books.head .get fun r => ?_
    split
    · exact .pure _
    · exact Books.head (h.round level) fun next => ih next

end IsServed

end Run

theorem Catalog.isTally (latency : ℕ) :
    (Catalog.source latency).IsTally fun s => s.retrievals + s.listings where
  retrieve _ s := Nat.add_right_comm s.retrievals 1 s.listings
  versions _ _ := rfl
  concretize _ _ := rfl

namespace Resolver

open Run

variable {resolver : Resolver σ} {q : Request} {fuel : ℕ} {res : Resolution}

theorem served_of_resolve {st : σ} {run : Run σ} (ht : resolver.source.IsTally served)
    (hl : ∀ l ∈ resolver.config.limits.fetch, resolver.source.latency ≤ l)
    (h : resolver.resolve fuel q st = (.ok (some res), run)) :
    served run.source = served st + res.fetches := by
  have hs : IsServed (resolver.session q) served := ⟨ht, hl⟩
  rw [resolve_eq] at h
  split at h
  · rename_i hr
    cases h
    exact hs.rounds fuel _ _ _ _ hr
  · cases h
  · cases h

/-- Under every configuration and every way to pick winners, a resolution over a catalog that
answers at once counts as many inquiries as the catalog gave answers. -/
theorem fetches_are_answers (config : Config) (arbiter : Arbiter) {s : Catalog} {run : Run Catalog}
    (h : (Resolver.mk (Catalog.source 0) config arbiter).resolve fuel q s =
      (.ok (some res), run)) :
    run.source.retrievals + run.source.listings =
      s.retrievals + s.listings + res.stats.fetches :=
  served_of_resolve (Catalog.isTally 0) (fun l _ => Nat.zero_le l) h

def stocked : Catalog :=
  (shelf [("a", "1", []), ("a", "2", []), ("a", "3", []), ("a", "4", []), ("c", "1", []),
    ("c", "2", [])])
  |>.add (library "b").key ⟨"1"⟩
    ⟨[.plain (library "a") ⟨none, [⟨some ⟨⟨"2"⟩, true⟩, some ⟨⟨"3"⟩, false⟩⟩]⟩], .empty⟩

def errand : Request :=
  .anonymous [.plain (library "a") ⟨none, [⟨some ⟨⟨"1"⟩, true⟩, some ⟨⟨"4"⟩, false⟩⟩]⟩,
    .plain (library "b") (.soft ⟨"1"⟩), .plain (library "c") (.soft ⟨"LATEST"⟩),
    { Dependency.plain (library "d") (.exact ⟨"1"⟩) with optional := true }] .empty

/-- Versions are listed three times for the first library, and once for the last one in vain. The
newest version of another one is made out. Three descriptors are read first, and then that of the
version that is left. -/
theorem fetches_are_answers_of_errand : ∃ res run,
    (ofPolicy .nearest).resolve 3 errand stocked = (.ok (some res), run) ∧
      res.problems.length = 1 ∧ run.source.retrievals = 4 ∧ run.source.listings = 5 ∧
      res.stats.fetches = 9 := by
  obtain ⟨res, h⟩ := finishes_iff.mp
    (show (ofPolicy .nearest).finishes 3 errand stocked = true by decide +kernel)
  have hp : ((ofPolicy .nearest).resolve 3 errand stocked).2.collection.problems.length =
      1 := by
    decide +kernel
  have hr : ((ofPolicy .nearest).resolve 3 errand stocked).2.source.retrievals = 4 := by
    decide +kernel
  have hl : ((ofPolicy .nearest).resolve 3 errand stocked).2.source.listings = 5 := by
    decide +kernel
  have hnone : stocked.retrievals + stocked.listings = 0 := by decide +kernel
  obtain ⟨hres, -, -⟩ := reaches_of_resolve h
  generalize hx : (ofPolicy .nearest).resolve 3 errand stocked = x at h hp hr hl hres
  obtain ⟨x, run⟩ := x
  obtain rfl : x = .ok (some res) := h
  have hcount := fetches_are_answers _ _ hx
  dsimp only at hr hl
  rw [hr, hl, hnone, Nat.zero_add] at hcount
  refine ⟨res, run, rfl, ?_, hr, hl, hcount.symm⟩
  rw [hres]
  exact hp

end Resolver

end Mediation
