import Mathlib.Data.Nat.Notation
import Mediation.Proofs.Transform.Pipeline
import Mediation.Transform.Deployment

/-! # Publication of builds

To publish a build is to plan it and to store its metadata in the repository it was planned for.
For the plan the registry asks that repository and notes what it answers, which does not know the
build yet. So the pipeline finds a build that was just published only where the registry asks
again.
-/

namespace Mediation

namespace Transform

variable {v : Version}

theorem number_of_buildVersion (hv : v.isOpenSnapshot = true) {s t : Text} {m n : UInt32}
    (h : buildVersion v s m = buildVersion v t n) : m = n := by
  rw [buildVersion, buildVersion, if_pos hv, if_pos hv, Version.mk.injEq] at h
  exact UInt32.toNat_inj.mp (Text.ofNat_of_append h)

theorem buildVersion_ne (hv : v.isOpenSnapshot = true) (timestamp : Text) (number : UInt32) :
    buildVersion v timestamp number ≠ v := by
  intro h
  have hconcrete := not_appliesTo_buildVersion hv timestamp number .snapshot
  rw [h] at hconcrete
  exact Bool.false_ne_true (hconcrete.symm.trans hv)

end Transform

theorem Envelope.snapshot_merge_forKey (key : MetadataKey) (found : Option Envelope) :
    (found.elim (forKey key) (forKey key).merge).versioning.snapshot =
      found.bind (·.versioning.snapshot) := by
  cases found with
  | none => rfl
  | some e => exact Option.or_none

/-- An answer is asked for again at once only under a policy that never keeps one. -/
theorem UpdatePolicy.requiresUpdate_self (p : UpdatePolicy) (m : Moment) :
    p.requiresUpdate m m = true ↔ p = always ∨ p = interval 0 := by
  cases p with
  | always => simp [requiresUpdate]
  | daily => simp [requiresUpdate]
  | never => simp [requiresUpdate]
  | interval minutes =>
    simp only [requiresUpdate, decide_eq_true_eq, reduceCtorEq, false_or, interval.injEq]
    omega

namespace Deployment

theorem toNat_add_one {n : UInt32} (hroom : n.toNat + 1 < Text.word32) :
    (n + 1).toNat = n.toNat + 1 := by
  rw [UInt32.toNat_add, UInt32.toNat_one]
  exact Nat.mod_eq_of_lt hroom

theorem next?_eq_some_iff {n m : UInt32} : next? n = some m ↔ m.toNat = n.toNat + 1 := by
  by_cases hroom : n.toNat + 1 < Text.word32
  · rw [next?, if_pos hroom, Option.some.injEq, ← UInt32.toNat_inj, toNat_add_one hroom, eq_comm]
  · have hm : m.toNat < Text.word32 := m.toNat_lt
    simp only [next?, if_neg hroom, reduceCtorEq, false_iff]
    omega

theorem next?_eq_none_iff {n : UInt32} : next? n = none ↔ n.toNat + 1 = Text.word32 := by
  have hn : n.toNat < Text.word32 := n.toNat_lt
  simp only [next?, ite_eq_right_iff, reduceCtorEq, imp_false]
  omega

section

variable {base : Version} {key : MetadataKey} {found : Option Envelope} {now : Moment}
  {d : Deployment}

/-- A plan is the build with the number behind the last one, as natural numbers. -/
theorem plan_eq_ok_iff : plan base key found now = .ok d ↔
    ∃ number, number.toNat = (lastNumber found).toNat + 1 ∧
      d = ofNumber base key found now number := by
  simp only [← next?_eq_some_iff]
  cases h : next? (lastNumber found) with
  | none => simp [plan, h]
  | some number => simp [plan, h, eq_comm]

theorem exists_plan_iff :
    (∃ d, plan base key found now = .ok d) ↔ (lastNumber found).toNat + 1 < Text.word32 := by
  simp only [plan_eq_ok_iff]
  constructor
  · rintro ⟨d, number, hnumber, -⟩
    exact hnumber ▸ number.toNat_lt
  · intro hroom
    exact ⟨_, lastNumber found + 1, toNat_add_one hroom, rfl⟩

theorem plan_eq_overflow_iff :
    plan base key found now = .error .overflow ↔ (lastNumber found).toNat + 1 = Text.word32 := by
  rw [← next?_eq_none_iff]
  cases h : next? (lastNumber found) <;> simp [plan, h]

end

section

variable {σ : Type} [Store σ] {g : Registry σ} {a : Artifact} {r : Repository} {base : Version}
  {found : Option Envelope} {asked now : Moment} {d : Deployment}

theorem fst_prepare (hbase : a.effective.map Version.base = some base)
    (hopen : base.isOpenSnapshot = true)
    (hf : (Store.fetch (.ofVersion a.key base.text) r g.store).1 = .ok found) :
    (prepare a r asked now g).1 = plan base (.ofVersion a.key base.text) found now := by
  rcases hs : Store.fetch (.ofVersion a.key base.text) r g.store with ⟨answer, s⟩
  obtain rfl : answer = .ok found := by simpa [hs] using hf
  simp [prepare, hbase, hopen, Registry.resolveFresh, hs]

/-- A build is planned exactly for an open snapshot after an answer of the repository. -/
theorem prepare_eq_ok_iff : (prepare a r asked now g).1 = .ok d ↔
    ∃ base found, a.effective.map Version.base = some base ∧ base.isOpenSnapshot = true ∧
      (Store.fetch (.ofVersion a.key base.text) r g.store).1 = .ok found ∧
      plan base (.ofVersion a.key base.text) found now = .ok d := by
  constructor
  · intro hd
    cases hbase : a.effective.map Version.base with
    | none => simp [prepare, hbase] at hd
    | some base =>
      cases hopen : base.isOpenSnapshot with
      | false => simp [prepare, hbase, hopen] at hd
      | true =>
        rcases hf : Store.fetch (.ofVersion a.key base.text) r g.store with ⟨_ | found, s⟩
        · simp [prepare, hbase, hopen, Registry.resolveFresh, hf] at hd
        · have hfound : (Store.fetch (.ofVersion a.key base.text) r g.store).1 = .ok found := by
            rw [hf]
          exact ⟨base, found, rfl, hopen, hfound, (fst_prepare hbase hopen hfound).symm.trans hd⟩
  · rintro ⟨base, found, hbase, hopen, hf, hd⟩
    exact (fst_prepare hbase hopen hf).trans hd

end

variable {g : Registry.InMemory} {r : Repository} {a b : Artifact} {base : Version}
  {key : MetadataKey} {found : Option Envelope} {asked now later : Moment} {d : Deployment}

/-- Plans the next build of an artifact and stores its metadata in the repository. -/
def publish (a : Artifact) (r : Repository) (asked now : Moment) (g : Registry.InMemory) :
    Except DeploymentFault Deployment × Registry.InMemory :=
  match prepare a r asked now g with
  | (.error err, g) => (.error err, g)
  | (.ok d, g) => (.ok d, g.alterStore (·.put r.id d.envelope))

/-- The last build of a snapshot that an envelope records, or else the snapshot itself. -/
def lastVersion (v : Version) (found : Option Envelope) : Version :=
  (found.bind (·.versioning.snapshot)).elim v (Transform.lastBuild v)

theorem publish_eq (hbase : a.effective.map Version.base = some base)
    (hopen : base.isOpenSnapshot = true)
    (hf : g.store.answer (.ofVersion a.key base.text) r = .ok found)
    (hd : plan base (.ofVersion a.key base.text) found now = .ok d) :
    publish a r asked now g =
      (.ok d, ⟨{ g.store with fetches := g.store.fetches + 1 }.put r.id d.envelope,
        g.cache.record r.id (.ofVersion a.key base.text) ⟨found, asked⟩⟩) := by
  simp only [publish, prepare, hbase, hopen, Registry.resolveFresh, Store.fetch, hf, hd]
  rfl

theorem fst_publish (a : Artifact) (r : Repository) (asked now : Moment) (g : Registry.InMemory) :
    (publish a r asked now g).1 = (prepare a r asked now g).1 := by
  rw [publish]
  split <;> simp_all

/-- What was published was planned for an open snapshot after an answer of the repository. -/
theorem of_publish (hbase : a.effective.map Version.base = some base)
    (hd : (publish a r asked now g).1 = .ok d) : base.isOpenSnapshot = true ∧
      ∃ found, g.store.answer (.ofVersion a.key base.text) r = .ok found ∧
        plan base (.ofVersion a.key base.text) found now = .ok d := by
  rw [fst_publish] at hd
  obtain ⟨base', found, hbase', hopen, hf, hd⟩ := prepare_eq_ok_iff.mp hd
  obtain rfl : base' = base := Option.some.inj (hbase'.symm.trans hbase)
  exact ⟨hopen, found, hf, hd⟩

theorem key_plan (hd : plan base key found now = .ok d) (hfound : ∀ e ∈ found, e.key = key) :
    d.envelope.key = key := by
  obtain ⟨number, -, rfl⟩ := plan_eq_ok_iff.mp hd
  cases found with
  | none => rfl
  | some e => exact hfound e rfl

/-- A repository tells what it told before a publication, unless it is asked again. -/
theorem told_publish (hfiled : g.store.IsFiled) (hbase : a.effective.map Version.base = some base)
    (hopen : base.isOpenSnapshot = true)
    (hf : g.store.answer (.ofVersion a.key base.text) r = .ok found)
    (hd : plan base (.ofVersion a.key base.text) found now = .ok d) (later : Moment) :
    (publish a r asked now g).2.told (.ofVersion a.key base.text) r later =
      .ok (if r.isLocal || r.policy.requiresUpdate asked later then some d.envelope
        else found) := by
  rw [publish_eq hbase hopen hf hd]
  generalize MetadataKey.ofVersion a.key base.text = key at hf hd ⊢
  have hfound := MemoryStore.eq_of_answer hf
  have hkey : d.envelope.key = key :=
    key_plan hd fun e he => hfiled r.id key e (hfound.symm.trans he)
  have hanswer :
      ({ g.store with fetches := g.store.fetches + 1 }.put r.id d.envelope).answer key r =
        .ok (some d.envelope) := MemoryStore.answer_put_self hkey hf
  have hlookup : (g.cache.record r.id key ⟨found, asked⟩).lookup? r.id key = some ⟨found, asked⟩ :=
    Table.get?_put_self ..
  -- At hand is what was found before the publication; only a new question reaches the store.
  rw [Registry.told, Registry.atHand?, hlookup, hanswer]
  cases r.isLocal with
  | true => rfl
  | false => cases hp : r.policy.requiresUpdate asked later <;> simp [Option.filter, hp]

/-- The pipeline makes an open snapshot the last build that the repository tells of, if it may be
asked. -/
theorem run_of_told (hkey : b.key = a.key) (hb : b.effective = some base)
    (hopen : base.isOpenSnapshot = true)
    (ht : g.told (.ofVersion a.key base.text) r now = .ok found) :
    (Pipeline.run Transform.all b [r] now g).1 =
      .ok (lastVersion base (if r.isLocal || g.isOnline then found else none)) := by
  have hresolve : (g.resolve (Transform.key .snapshot b.coordinate base) [r] now).1 = _ :=
    Registry.resolve_singleton (hkey ▸ ht)
  have happlies : Transform.appliesTo .snapshot base = true := hopen
  rw [(Pipeline.run_eq (g.isEven_singleton r now) Transform.all hb).1,
    Pipeline.outcome_of_isOpenSnapshot hopen, Pipeline.step_of_resolve happlies hresolve]
  exact congrArg (fun x => Except.ok (x.elim base (Transform.lastBuild base)))
    (Envelope.snapshot_merge_forKey _ _)

theorem lastVersion_plan (hd : plan base key found now = .ok d) :
    lastVersion base (some d.envelope) = d.version := by
  obtain ⟨number, hnumber, rfl⟩ := plan_eq_ok_iff.mp hd
  have hpos : (number == 0) = false := by
    refine beq_eq_false_iff_ne.mpr fun hzero => ?_
    rw [hzero] at hnumber
    exact Nat.succ_ne_zero _ hnumber.symm
  change Transform.lastBuild base ⟨some now.buildStamp, number, false⟩ = _
  rw [Transform.lastBuild, hpos]
  rfl

theorem lastVersion_ne_plan (hopen : base.isOpenSnapshot = true)
    (hd : plan base key found now = .ok d) : lastVersion base found ≠ d.version := by
  obtain ⟨number, hnumber, rfl⟩ := plan_eq_ok_iff.mp hd
  change lastVersion base found ≠ Transform.buildVersion base now.buildStamp number
  rw [lastVersion]
  cases hs : found.bind (·.versioning.snapshot) with
  | none => exact (Transform.buildVersion_ne hopen _ _).symm
  | some record =>
    have hlast : lastNumber found = record.buildNumber := by rw [lastNumber, hs]; rfl
    rw [Option.elim_some]
    rcases Transform.lastBuild_eq_or base record with h | ⟨timestamp, h⟩
    · rw [h]
      exact (Transform.buildVersion_ne hopen _ _).symm
    · rw [h]
      intro heq
      rw [hlast, Transform.number_of_buildVersion hopen heq] at hnumber
      omega

/-- The pipeline finds a build that was published in a repository if and only if it asks that
repository again: if it is the local one, or if remote ones may be asked and its policy calls the
answer that the build was planned from stale. -/
theorem run_publish_iff (hfiled : g.store.IsFiled)
    (hbase : a.effective.map Version.base = some base)
    (hd : (publish a r asked now g).1 = .ok d) (hkey : b.key = a.key)
    (hb : b.effective = some base) :
    (Pipeline.run Transform.all b [r] later (publish a r asked now g).2).1 = .ok d.version ↔
      r.isLocal = true ∨ g.isOnline = true ∧ r.policy.requiresUpdate asked later = true := by
  obtain ⟨hopen, found, hf, hd⟩ := of_publish hbase hd
  have hstore : (publish a r asked now g).2.isOnline = g.isOnline := by
    rw [publish_eq hbase hopen hf hd]
    rfl
  rw [run_of_told hkey hb hopen (told_publish hfiled hbase hopen hf hd later), hstore,
    Except.ok.injEq]
  cases r.isLocal with
  | true => simp [lastVersion_plan hd]
  | false =>
    cases g.isOnline with
    | false =>
      have hne : lastVersion base none ≠ d.version := by
        obtain ⟨number, -, rfl⟩ := plan_eq_ok_iff.mp hd
        exact (Transform.buildVersion_ne hopen _ _).symm
      simp [hne]
    | true =>
      cases r.policy.requiresUpdate asked later with
      | true => simp [lastVersion_plan hd]
      | false => simp [lastVersion_ne_plan hopen hd]

/-- At the moment of its publication the pipeline finds a build if and only if the repository is the
local one, or remote ones may be asked and its policy keeps no answer. -/
theorem run_publish_at_once (hfiled : g.store.IsFiled)
    (hbase : a.effective.map Version.base = some base)
    (hd : (publish a r asked now g).1 = .ok d) (hkey : b.key = a.key)
    (hb : b.effective = some base) :
    (Pipeline.run Transform.all b [r] asked (publish a r asked now g).2).1 = .ok d.version ↔
      r.isLocal = true ∨ g.isOnline = true ∧ (r.policy = .always ∨ r.policy = .interval 0) := by
  rw [run_publish_iff hfiled hbase hd hkey hb, UpdatePolicy.requiresUpdate_self]

theorem isFiled_nightly : Pipeline.nightly.IsFiled :=
  (MemoryStore.isFiled_empty.put _ _).put _ _

/-- The fourth build of a snapshot, under a policy that keeps no answer and under one that does. -/
theorem run_publish_at_once_of_nightly :
    (Pipeline.run Transform.all (.root (.jar "g" "a") ⟨"2-SNAPSHOT"⟩) [.mirror .always] 0
      (publish (.root (.jar "g" "a") ⟨"2-SNAPSHOT"⟩) (.mirror .always) 0 0
        (.ofStore Pipeline.nightly)).2).1 = .ok ⟨"2-19700101.000000-4"⟩ ∧
    (Pipeline.run Transform.all (.root (.jar "g" "a") ⟨"2-SNAPSHOT"⟩) [.mirror .daily] 0
      (publish (.root (.jar "g" "a") ⟨"2-SNAPSHOT"⟩) (.mirror .daily) 0 0
        (.ofStore Pipeline.nightly)).2).1 ≠ .ok ⟨"2-19700101.000000-4"⟩ := by
  have hd : ∀ policy, (publish (.root (.jar "g" "a") ⟨"2-SNAPSHOT"⟩) (.mirror policy) 0 0
      (.ofStore Pipeline.nightly)).1 = .ok (ofNumber ⟨"2-SNAPSHOT"⟩ ⟨"g", "a", some "2-SNAPSHOT"⟩
        (Pipeline.nightly.get? "mirror" ⟨"g", "a", some "2-SNAPSHOT"⟩) 0 4) := fun _ => rfl
  refine ⟨?_, fun h => ?_⟩
  · exact (run_publish_at_once isFiled_nightly (by rfl) (hd .always) rfl rfl).mpr
      (.inr ⟨rfl, .inl rfl⟩)
  · have hasks :=
      (run_publish_at_once isFiled_nightly (by rfl) (hd .daily) rfl rfl).mp h
    exact absurd hasks (by decide)

end Deployment

end Mediation
