import Mathlib.Data.List.Chain
import Mathlib.Tactic.Tauto
import Mediation.Proofs.Repository.Asking
import Mediation.Proofs.Repository.Reading
import Mediation.Proofs.Time.Calendar

/-! # Traffic

How often a remote repository is read is up to its update policy. What is kept of its last answer
tells when that was given, whatever else was asked in between and whichever way clocks were set. So
each answer of the repository comes at a moment at which the one before it was stale.
-/

namespace Mediation

/-- Whether a policy allows for answers at the moments of a list, one after the other. -/
def UpdatePolicy.Allows (p : UpdatePolicy) (ms : List Moment) : Prop :=
  match p with
  | always => True
  | daily => ms.Pairwise fun m n => m.date.number < n.date.number
  | never => ms.length ≤ 1
  | interval minutes => ms.IsChain fun m n : Moment => m + (minutes : ℤ) * 60000 ≤ n

/-- Answers each of which was stale when the next one came are as rare as the policy wants. -/
theorem UpdatePolicy.allows_of_isChain (p : UpdatePolicy) {ms : List Moment}
    (h : ms.IsChain fun m n => p.requiresUpdate m n = true) : p.Allows ms := by
  cases p with
  | always => trivial
  | daily =>
    have hdays : (ms.map Moment.day).IsChain (· < ·) :=
      (List.isChain_map Moment.day).mpr (h.imp fun m n hmn => of_decide_eq_true hmn)
    exact (List.pairwise_map.mp hdays.pairwise).imp Date.number_ofDay_lt
  | never =>
    match ms, h with
    | [], _ | [_], _ => simp [Allows]
    | m :: n :: ms, h => cases (List.isChain_cons_cons.mp h).1
  | interval minutes =>
    refine h.imp fun m n hmn => ?_
    have hle : (minutes : ℤ) * 60000 ≤ n - m := of_decide_eq_true hmn
    exact Int.add_le_of_le_sub_left hle

/-- A store that writes down which repositories give an answer, and for which key. -/
structure Logged (σ : Type) where
  store : σ
  log : List (MetadataKey × Repository)

variable {σ : Type} [Store σ] {k key : MetadataKey} {r : Repository} {rs : List Repository}
  {id : Text} {now : Moment} {policy : UpdatePolicy}

instance : Store (Logged σ) where
  isOnline w := Store.isOnline w.store
  fetch key r w :=
    match Store.fetch key r w.store with
    | (.error err, s) => (.error err, ⟨s, w.log⟩)
    | (.ok found, s) => (.ok found, ⟨s, w.log ++ [(key, r)]⟩)

namespace Logged

variable {w w' : Logged σ}

theorem log_of_error {err : RetrievalError} (h : Store.fetch key r w = (.error err, w')) :
    w'.log = w.log := by
  simp only [Store.fetch] at h
  split at h
  · exact (congrArg (·.2.log) h).symm
  · cases h

theorem log_of_ok {found : Option Envelope} (h : Store.fetch key r w = (.ok found, w')) :
    w'.log = w.log ++ [(key, r)] := by
  simp only [Store.fetch] at h
  split at h
  · cases h
  · exact (congrArg (·.2.log) h).symm

end Logged

namespace Registry

def logged (g : Registry σ) : Registry (Logged σ) := ⟨⟨g.store, []⟩, g.cache⟩

def unlogged (w : Registry (Logged σ)) : Registry σ := ⟨w.store.store, w.cache⟩

theorem unlogged_ask (w : Registry (Logged σ)) (key : MetadataKey) (r : Repository) (now : Moment) :
    w.unlogged.ask key r now = ((w.ask key r now).1, (w.ask key r now).2.unlogged) := by
  have hand : w.unlogged.atHand? key r now = w.atHand? key r now := rfl
  rw [ask, ask, hand]
  cases w.atHand? key r now with
  | some a => rfl
  | none =>
    rw [fetch, fetch]
    simp only [Store.fetch, unlogged]
    rcases Store.fetch key r w.store.store with ⟨_ | found, s⟩ <;> rfl

theorem unlogged_collect (w : Registry (Logged σ)) (key : MetadataKey) (now : Moment) (e : Envelope)
    (rs : List Repository) : w.unlogged.collect key now e rs =
      ((w.collect key now e rs).1, (w.collect key now e rs).2.unlogged) := by
  induction rs generalizing w e with
  | nil => rfl
  | cons r rs ih =>
    rw [collect, collect, unlogged_ask]
    rcases w.ask key r now with ⟨_ | found, w'⟩
    · rfl
    · exact ih w' _

theorem unlogged_resolve (w : Registry (Logged σ)) (key : MetadataKey) (rs : List Repository)
    (now : Moment) : w.unlogged.resolve key rs now =
      ((w.resolve key rs now).1, (w.resolve key rs now).2.unlogged) := by
  have honline : w.unlogged.isOnline = w.isOnline := rfl
  rw [resolve, resolve, unlogged_collect, honline]
  rcases w.collect key now (.forKey key) _ with ⟨_ | e, w'⟩ <;> rfl

/-- Which repositories give an answer while a key is resolved, and for which key. -/
def answering (g : Registry σ) (key : MetadataKey) (rs : List Repository) (now : Moment) :
    List (MetadataKey × Repository) :=
  (g.logged.resolve key rs now).2.store.log

/-- What happens to a registry: a key is resolved, or the store becomes another one, as when it is
written to or goes offline. -/
inductive Episode (σ : Type)
  | resolve (key : MetadataKey) (rs : List Repository) (now : Moment)
  | change (f : σ → σ)

structure Fetch where
  key : MetadataKey
  repository : Repository
  moment : Moment

def stamped (now : Moment) (log : List (MetadataKey × Repository)) : List Fetch :=
  log.map fun entry => ⟨entry.1, entry.2, now⟩

def fetches (g : Registry σ) : List (Episode σ) → List Fetch
  | [] => []
  | .resolve key rs now :: es =>
    stamped now (g.answering key rs now) ++ fetches (g.resolve key rs now).2 es
  | .change f :: es => fetches { g with store := f g.store } es

/-- Whether an answer is one of the remote repository of an id, for a key. -/
def Fetch.isOf (id : Text) (key : MetadataKey) (f : Fetch) : Bool :=
  !f.repository.isLocal && f.repository.id == id && f.key == key

/-- The moments of the answers that the remote repository of an id gave for a key. -/
def moments (id : Text) (key : MetadataKey) (fs : List Fetch) : List Moment :=
  (fs.filter (·.isOf id key)).map (·.moment)

@[simp] theorem moments_append (id : Text) (key : MetadataKey) (fs fs' : List Fetch) :
    moments id key (fs ++ fs') = moments id key fs ++ moments id key fs' := by
  simp [moments]

theorem moments_singleton (id : Text) (key : MetadataKey) (f : Fetch) :
    moments id key [f] = if f.isOf id key then [f.moment] else [] := by
  cases h : f.isOf id key <;> simp [moments, h]

theorem moments_stamped_append (fs : List Fetch) (log : List (MetadataKey × Repository)) :
    moments id key (fs ++ stamped now (log ++ [(k, r)])) =
      moments id key (fs ++ stamped now log) ++
        if (⟨k, r, now⟩ : Fetch).isOf id key then [now] else [] := by
  rw [stamped, List.map_append, ← List.append_assoc, moments_append, List.map_singleton,
    moments_singleton]
  rfl

/-- Whether answers were stale when the next one came, and a cache keeps the last one of them. -/
structure Paces (policy : UpdatePolicy) (id : Text) (key : MetadataKey) (c : Cache)
    (ms : List Moment) : Prop where
  spaced : ms.IsChain fun m n => policy.requiresUpdate m n = true
  latest : ∀ m ∈ ms.getLast?, (c.lookup? id key).map (·.checkedAt) = some m

variable {c d : Cache} {ms : List Moment} {fs : List Fetch} {log : List (MetadataKey × Repository)}

theorem Paces.of_lookup? (h : Paces policy id key c ms)
    (heq : d.lookup? id key = c.lookup? id key) : Paces policy id key d ms :=
  ⟨h.spaced, fun m hm => heq ▸ h.latest m hm⟩

theorem Paces.record (h : Paces policy id key c ms) (found : Option Envelope)
    (hstale : ∀ a, c.lookup? id key = some a → policy.requiresUpdate a.checkedAt now = true) :
    Paces policy id key (c.record id key ⟨found, now⟩) (ms ++ [now]) where
  spaced := by
    refine h.spaced.append (.singleton now) fun m hm n hn => ?_
    obtain ⟨a, ha, rfl⟩ := Option.map_eq_some_iff.mp (h.latest m hm)
    obtain rfl : now = n := by simpa using hn
    exact hstale a ha
  latest := by simp [Cache.lookup?_record]

/-- Whatever a question is about, it comes at a pace that the policy wants. -/
theorem Paces.ask {w : Registry (Logged σ)}
    (hpolicy : r.isLocal = false → r.id = id → r.policy = policy)
    (h : Paces policy id key w.cache (moments id key (fs ++ stamped now w.store.log))) :
    Paces policy id key (w.ask k r now).2.cache
      (moments id key (fs ++ stamped now (w.ask k r now).2.store.log)) := by
  have hasks := w.asks_ask k r now
  generalize w.ask k r now = asked at hasks
  cases hasks with
  | reuses => exact h.of_lookup? rfl
  | fails hand fetched =>
    rw [Logged.log_of_error fetched]
    exact h.of_lookup? rfl
  | reads hand fetched isLocal =>
    have hother : (⟨k, r, now⟩ : Fetch).isOf id key = false := by simp [Fetch.isOf, isLocal]
    rw [Logged.log_of_ok fetched, moments_stamped_append, hother]
    simpa using h.of_lookup? (d := w.cache.miss) rfl
  | @refreshes found _ hand fetched isRemote =>
    rw [Logged.log_of_ok fetched, moments_stamped_append]
    by_cases hplace : r.id = id ∧ k = key
    · -- The answer is one that is counted: what was kept of the one before it was stale.
      obtain ⟨rfl, rfl⟩ := hplace
      have hsame : (⟨k, r, now⟩ : Fetch).isOf r.id k = true := by simp [Fetch.isOf, isRemote]
      rw [hsame, if_pos rfl]
      refine (h.of_lookup? (d := w.cache.miss) rfl).record found fun a ha => ?_
      rw [← hpolicy isRemote rfl]
      exact requiresUpdate_of_atHand isRemote hand ha
    · have hother : (⟨k, r, now⟩ : Fetch).isOf id key = false := by
        simpa [Fetch.isOf, isRemote] using hplace
      rw [hother]
      refine Paces.of_lookup? (by simpa using h) ?_
      rw [Cache.lookup?_record, if_neg fun hp => hplace ⟨hp.1.symm, hp.2.symm⟩, Cache.lookup?_miss]

theorem Paces.resolve {w : Registry (Logged σ)}
    (hpolicy : ∀ r ∈ rs, r.isLocal = false → r.id = id → r.policy = policy)
    (h : Paces policy id key w.cache (moments id key (fs ++ stamped now w.store.log))) :
    Paces policy id key (w.resolve k rs now).2.cache
      (moments id key (fs ++ stamped now (w.resolve k rs now).2.store.log)) := by
  refine resolve_preserves (P := fun w : Registry (Logged σ) => Paces policy id key w.cache
    (moments id key (fs ++ stamped now w.store.log))) ?_ ?_ h
  · intro w r hr hw
    exact hw.ask (hpolicy r hr)
  · intro w e hw
    exact hw.of_lookup? (Cache.lookup?_putMerged ..)

/-- Resolving keys keeps the pace, as long as remote repositories of the id have the policy. -/
theorem Paces.isChain {g : Registry σ} {es : List (Episode σ)}
    (hpolicy : ∀ k rs now, .resolve k rs now ∈ es →
      ∀ r ∈ rs, r.isLocal = false → r.id = id → r.policy = policy)
    (h : Paces policy id key g.cache (moments id key fs)) :
    (moments id key (fs ++ g.fetches es)).IsChain fun m n => policy.requiresUpdate m n = true := by
  induction es generalizing g fs with
  | nil => simpa [fetches] using h.spaced
  | cons episode es ih =>
    have hlater : ∀ k rs now, .resolve k rs now ∈ es →
        ∀ r ∈ rs, r.isLocal = false → r.id = id → r.policy = policy :=
      fun k rs now hmem => hpolicy k rs now (List.mem_cons_of_mem _ hmem)
    cases episode with
    | change f => exact ih hlater h
    | resolve k rs now =>
      rw [fetches, ← List.append_assoc]
      refine ih hlater ?_
      have hlogged : Paces policy id key g.logged.cache
          (moments id key (fs ++ stamped now g.logged.store.log)) := by
        simpa [logged, stamped] using h
      have hresolved := hlogged.resolve (k := k) (hpolicy k rs now List.mem_cons_self)
      have hcache : (g.resolve k rs now).2.cache = (g.logged.resolve k rs now).2.cache :=
        congrArg (·.2.cache) (unlogged_resolve g.logged k rs now)
      exact hresolved.of_lookup? (by rw [hcache])

/-- However keys are resolved, at whatever moments, and whatever becomes of the store in between:
the answers of a remote repository for a key come as rarely as its policy wants, which is once at
most if they are never stale, on later days each if they last for the day, and otherwise after the
minutes of the interval. -/
theorem policy_allows_fetches (g : Registry σ) (es : List (Episode σ)) (id : Text)
    (key : MetadataKey) (hpolicy : ∀ k rs now, .resolve k rs now ∈ es →
      ∀ r ∈ rs, r.isLocal = false → r.id = id → r.policy = policy) :
    policy.Allows (moments id key (g.fetches es)) := by
  have hstart : Paces policy id key g.cache (moments id key []) := ⟨.nil, by simp [moments]⟩
  exact policy.allows_of_isChain (hstart.isChain hpolicy)

/-- A day on which a repository is read every hour at most: it is offline for some time, and the
clock is set back. -/
def hourly : List (Episode MemoryStore) :=
  [.resolve ⟨"g", "a", none⟩ [.mirror (.interval 60)] 0,
    .change (·.put "mirror" ⟨"g", "a", none, none, some "1", ["1"], none, none⟩),
    .resolve ⟨"g", "a", none⟩ [.mirror (.interval 60)] 1800000,
    .resolve ⟨"g", "a", none⟩ [.mirror (.interval 60)] 3660000,
    .change fun s => { s with isOnline := false },
    .resolve ⟨"g", "a", none⟩ [.mirror (.interval 60)] 9000000,
    .change fun s => { s with isOnline := true },
    .resolve ⟨"g", "a", none⟩ [.mirror (.interval 60)] 0,
    .resolve ⟨"g", "a", none⟩ [.mirror (.interval 60)] 7260000]

theorem policy_allows_fetches_of_hourly :
    moments "mirror" ⟨"g", "a", none⟩ ((Registry.ofStore .empty).fetches hourly) =
      [0, 3660000, 7260000] ∧
    (UpdatePolicy.interval 60).Allows
      (moments "mirror" ⟨"g", "a", none⟩ ((Registry.ofStore .empty).fetches hourly)) := by
  refine ⟨by rfl, policy_allows_fetches _ hourly "mirror" _ ?_⟩
  intro k rs now hmem r hr _ _
  have hrs : rs = [.mirror (.interval 60)] := by
    simp [hourly] at hmem
    tauto
  subst hrs
  rw [List.mem_singleton.mp hr]
  rfl

end Registry

end Mediation
