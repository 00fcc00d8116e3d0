import Mediation.Repository.Disk
import Mediation.Transform.Deployment
import Mediation.Transform.Pipeline

/-! # Reading offline

While remote repositories may not be asked, a read should ask local ones only, and give what these
determine. It does so if it keeps every relation between stores that reads of local repositories
keep. Resolving a key and running a pipeline do; a fresh read asks whatever repository it is given.
-/

namespace Mediation

variable {σ τ : Type} [Store σ] [Store τ] {key : MetadataKey} {r : Repository}

/-- A relation between offline states that answer alike for local repositories, and that reads of
local repositories keep. -/
structure IsLocalSimulation (R : σ → τ → Prop) : Prop where
  offline_left : ∀ s t, R s t → Store.isOnline s = false
  offline_right : ∀ s t, R s t → Store.isOnline t = false
  answer : ∀ s t, R s t → ∀ key (r : Repository), r.isLocal = true →
    (Store.fetch key r s).1 = (Store.fetch key r t).1
  keeps : ∀ s t, R s t → ∀ key (r : Repository), r.isLocal = true →
    R (Store.fetch key r s).2 (Store.fetch key r t).2

/-- Whether two stores are offline and stay so, and their local repositories answer alike. -/
def AlikeOffline (s : σ) (t : τ) : Prop := ∃ R : σ → τ → Prop, IsLocalSimulation R ∧ R s t

def IsOffline (s : σ) : Prop := AlikeOffline s s

theorem IsOffline.isOnline {s : σ} (hs : IsOffline s) : Store.isOnline s = false := by
  obtain ⟨R, hR, hs⟩ := hs
  exact hR.offline_left s s hs

theorem IsOffline.fetch {s : σ} (hs : IsOffline s) (key : MetadataKey) (hr : r.isLocal = true) :
    IsOffline (Store.fetch key r s).2 := by
  obtain ⟨R, hR, hs⟩ := hs
  exact ⟨R, hR, hR.keeps s s hs key r hr⟩

theorem alikeOffline_memory {s t : MemoryStore} (hs : s.isOnline = false) (ht : t.isOnline = false)
    (h : ∀ key (r : Repository), r.isLocal = true → s.answer key r = t.answer key r) :
    AlikeOffline s t := by
  refine ⟨fun s t => (s.isOnline = false ∧ t.isOnline = false) ∧
    ∀ key (r : Repository), r.isLocal = true → s.answer key r = t.answer key r, ?_, ⟨hs, ht⟩, h⟩
  exact ⟨fun _ _ hR => hR.1.1, fun _ _ hR => hR.1.2, fun _ _ hR => hR.2, fun _ _ hR _ _ _ => hR⟩

theorem isOffline_memory {s : MemoryStore} (hs : s.isOnline = false) : IsOffline s :=
  alikeOffline_memory hs hs fun _ _ _ => rfl

theorem isOffline_disk {d : Disk} (hd : d.isOnline = false) : IsOffline d := by
  refine ⟨fun d e => d = e ∧ d.isOnline = false, ?_, rfl, hd⟩
  refine ⟨fun _ _ hR => hR.2, fun _ _ hR => hR.1 ▸ hR.2, fun _ _ hR _ _ _ => hR.1 ▸ rfl,
    fun _ _ hR _ _ _ => hR⟩

structure Watched (σ : Type) where
  store : σ
  asked : List Repository

namespace Watched

instance : Store (Watched σ) where
  isOnline w := Store.isOnline w.store
  fetch key r w := ((Store.fetch key r w.store).1, ⟨(Store.fetch key r w.store).2, w.asked ++ [r]⟩)

def remotes (w : Watched σ) : List Repository := w.asked.filter (!·.isLocal)

theorem remotes_fetch (key : MetadataKey) (hr : r.isLocal = true) (w : Watched σ) :
    (Store.fetch key r w).2.remotes = w.remotes := by
  change (w.asked ++ [r]).filter (!·.isLocal) = w.remotes
  rw [List.filter_append, List.filter_cons_of_neg (by simp [hr]), List.filter_nil, List.append_nil]
  rfl

theorem isLocalSimulation_remotes (asked : List Repository) :
    IsLocalSimulation fun w w' : Watched σ => w = w' ∧ IsOffline w.store ∧ w.remotes = asked where
  offline_left _ _ hR := hR.2.1.isOnline
  offline_right _ _ hR := hR.1 ▸ hR.2.1.isOnline
  answer _ _ hR _ _ _ := hR.1 ▸ rfl
  keeps w _ hR key _ hr :=
    ⟨hR.1 ▸ rfl, hR.2.1.fetch key hr, (remotes_fetch key hr w).trans hR.2.2⟩

end Watched

abbrev Registry.Read (α : Type) := ∀ {σ : Type} [Store σ], Registry σ → α × Registry σ

namespace Registry.Read

variable {α : Type} {read : Read α}

def Corresponds (R : σ → τ → Prop) (x : α × Registry σ) (y : α × Registry τ) : Prop :=
  ∃ answer g h, x = (answer, g) ∧ y = (answer, h) ∧ R g.store h.store

/-- A read that keeps all relations that reads of local repositories keep. -/
structure KeepsLocal (read : Read α) : Prop where
  corresponds : ∀ {σ τ : Type} [Store σ] [Store τ] {R : σ → τ → Prop}, IsLocalSimulation R →
    ∀ {g : Registry σ} {h : Registry τ}, R g.store h.store → Corresponds R (read g) (read h)

/-- A read that asks no remote repository while offline, and gives then what local repositories
determine, whatever is at hand. -/
structure IsLocal (read : Read α) : Prop where
  remotes : ∀ {σ : Type} [Store σ] (g : Registry (Watched σ)), IsOffline g.store.store →
    (read g).2.store.remotes = g.store.remotes
  answers : ∀ {σ τ : Type} [Store σ] [Store τ] (g : Registry σ) (h : Registry τ),
    AlikeOffline g.store h.store → (read g).1 = (read h).1

theorem KeepsLocal.isLocal (hread : KeepsLocal read) : IsLocal read where
  remotes g hg := by
    obtain ⟨_, g', _, hg', -, hkept⟩ := hread.corresponds
      (Watched.isLocalSimulation_remotes g.store.remotes) (g := g) (h := g) ⟨rfl, hg, rfl⟩
    rw [hg']
    exact hkept.2.2
  answers g h halike := by
    obtain ⟨R, hR, hgh⟩ := halike
    obtain ⟨_, _, _, hg', hh', -⟩ := hread.corresponds hR hgh
    rw [hg', hh']

end Registry.Read

open Registry.Read

namespace Registry

variable {R : σ → τ → Prop} {g : Registry σ} {h : Registry τ} {now : Moment}

theorem fetch_corresponds (hR : IsLocalSimulation R) {s : σ} {t : τ} (hst : R s t)
    (hr : r.isLocal = true) (key : MetadataKey) :
    ∃ answer s' t', Store.fetch key r s = (answer, s') ∧ Store.fetch key r t = (answer, t') ∧
      R s' t' :=
  ⟨_, _, _, rfl, Prod.ext (hR.answer s t hst key r hr).symm rfl, hR.keeps s t hst key r hr⟩

theorem ask_corresponds (hR : IsLocalSimulation R) (hgh : R g.store h.store)
    (hr : r.isLocal = true) (key : MetadataKey) (now : Moment) :
    Corresponds R (g.ask key r now) (h.ask key r now) := by
  obtain ⟨answer, s, t, hs, ht, hst⟩ := fetch_corresponds hR hgh hr key
  have hg : g.atHand? key r now = none := if_pos hr
  have hh : h.atHand? key r now = none := if_pos hr
  simp only [ask, hg, hh, fetch, hs, ht]
  cases answer <;> exact ⟨_, _, _, rfl, rfl, hst⟩

theorem collect_corresponds (hR : IsLocalSimulation R) (hgh : R g.store h.store)
    {l : List Repository} (hl : ∀ r ∈ l, r.isLocal = true) (key : MetadataKey) (now : Moment)
    (e : Envelope) : Corresponds R (g.collect key now e l) (h.collect key now e l) := by
  induction l generalizing g h e with
  | nil => exact ⟨_, _, _, rfl, rfl, hgh⟩
  | cons r l ih =>
    obtain ⟨answer, g', h', hg, hh, hstore⟩ :=
      ask_corresponds hR hgh (hl r List.mem_cons_self) key now
    rw [collect, collect, hg, hh]
    cases answer with
    | error err => exact ⟨_, _, _, rfl, rfl, hstore⟩
    | ok found => exact ih hstore (fun x hx => hl x (List.mem_cons_of_mem r hx)) _

theorem keepsLocal_resolve (key : MetadataKey) (rs : List Repository) (now : Moment) :
    KeepsLocal fun g => g.resolve key rs now := by
  refine ⟨fun {σ τ _ _ R} hR {g h} hgh => ?_⟩
  -- Both registries are offline, so they ask the same repositories, all of them local.
  have hlocal : ∀ r ∈ (inOrder rs).filter (fun r => r.isLocal || false), r.isLocal = true :=
    fun r hr => by simpa using (List.mem_filter.mp hr).2
  obtain ⟨answer, g', h', hg, hh, hstore⟩ :=
    collect_corresponds hR hgh hlocal key now (.forKey key)
  have hoffline : g.isOnline = false := hR.offline_left _ _ hgh
  have hoffline' : h.isOnline = false := hR.offline_right _ _ hgh
  simp only [resolve, hoffline, hoffline', hg, hh]
  cases answer <;> exact ⟨_, _, _, rfl, rfl, hstore⟩

theorem keepsLocal_resolveFresh (hr : r.isLocal = true) (key : MetadataKey) (now : Moment) :
    KeepsLocal fun g => g.resolveFresh key r now := by
  refine ⟨fun {σ τ _ _ R} hR {g h} hgh => ?_⟩
  obtain ⟨answer, s, t, hs, ht, hst⟩ := fetch_corresponds hR hgh hr key
  simp only [resolveFresh, hs, ht]
  cases answer <;> exact ⟨_, _, _, rfl, rfl, hst⟩

end Registry

namespace Pipeline

theorem keepsLocal_apply (c : Coordinate) (rs : List Repository) (now : Moment) (p : Pipeline)
    (v : Version) : KeepsLocal fun g => apply c rs now v g p := by
  refine ⟨fun {σ τ _ _ R} hR {g h} hgh => ?_⟩
  induction p generalizing g h v with
  | nil => exact ⟨_, _, _, rfl, rfl, hgh⟩
  | cons t ts ih =>
    simp only [apply]
    split
    · obtain ⟨answer, g', h', hg, hh, hstore⟩ :=
        (Registry.keepsLocal_resolve (t.key c v) rs now).corresponds hR hgh
      simp only [hg, hh]
      cases answer with
      | error err => exact ⟨_, _, _, rfl, rfl, hstore⟩
      | ok e =>
        dsimp only
        cases t.construct c v e with
        | error err => exact ⟨_, _, _, rfl, rfl, hstore⟩
        | ok w => exact ih w hstore
    · exact ih v hgh

theorem keepsLocal_run (p : Pipeline) (a : Artifact) (rs : List Repository) (now : Moment) :
    KeepsLocal fun g => run p a rs now g := by
  refine ⟨fun {σ τ _ _ R} hR {g h} hgh => ?_⟩
  simp only [run]
  cases a.effective with
  | none => exact ⟨_, _, _, rfl, rfl, hgh⟩
  | some v => exact (keepsLocal_apply a.coordinate rs now p v).corresponds hR hgh

end Pipeline

namespace Registry

/-- A registry that is offline and has neither asked anyone nor anyone to ask. -/
def unplugged : Registry (Watched MemoryStore) :=
  .ofStore ⟨{ MemoryStore.empty with isOnline := false }, []⟩

theorem isLocal_of_asked {α : Type} {read : Read α} (hread : IsLocal read)
    (hr : (read unplugged).2.store.asked = [r]) : r.isLocal = true := by
  have hremotes := hread.remotes unplugged (isOffline_memory rfl)
  rw [Watched.remotes, hr] at hremotes
  cases hlocal : r.isLocal with
  | true => rfl
  | false =>
    rw [List.filter_cons_of_pos (by simp [hlocal])] at hremotes
    cases hremotes

/-- A fresh read asks its repository, also if that is a remote one and may not be asked. -/
theorem isLocal_resolveFresh_iff (key : MetadataKey) (r : Repository) (now : Moment) :
    IsLocal (fun g => g.resolveFresh key r now) ↔ r.isLocal = true :=
  ⟨fun hread => isLocal_of_asked hread rfl, fun hr => (keepsLocal_resolveFresh hr key now).isLocal⟩

end Registry

namespace Deployment

variable {a : Artifact} {asked now : Moment}

theorem keepsLocal_prepare (hlocal : r.isLocal = true ∨
    ∀ base ∈ a.effective.map Version.base, base.isOpenSnapshot = false) :
    KeepsLocal fun g => prepare a r asked now g := by
  refine ⟨fun {σ τ _ _ R} hR {g h} hgh => ?_⟩
  simp only [prepare]
  cases hbase : a.effective.map Version.base with
  | none => exact ⟨_, _, _, rfl, rfl, hgh⟩
  | some base =>
    dsimp only
    split
    · exact ⟨_, _, _, rfl, rfl, hgh⟩
    · rename_i hopen
      have hr : r.isLocal = true :=
        hlocal.resolve_right fun hnone => hopen (by simp [hnone base hbase])
      obtain ⟨answer, g', h', hg, hh, hstore⟩ :=
        (Registry.keepsLocal_resolveFresh hr (.ofVersion a.key base.text) asked).corresponds hR hgh
      simp only [hg, hh]
      cases answer <;> exact ⟨_, _, _, rfl, rfl, hstore⟩

/-- A build is planned by a fresh read, so what holds of that holds of the plan, unless there is
nothing to plan. -/
theorem isLocal_prepare_iff (a : Artifact) (r : Repository) (asked now : Moment) :
    IsLocal (fun g => prepare a r asked now g) ↔
      r.isLocal = true ∨ ∀ base ∈ a.effective.map Version.base, base.isOpenSnapshot = false := by
  refine ⟨fun hread => ?_, fun h => (keepsLocal_prepare h).isLocal⟩
  cases hbase : a.effective.map Version.base with
  | none => exact .inr fun _ h => nomatch h
  | some base =>
    cases hopen : base.isOpenSnapshot with
    | false => exact .inr fun _ h => Option.some.inj h ▸ hopen
    | true =>
      refine .inl (Registry.isLocal_of_asked hread ?_)
      simp only [prepare, hbase, hopen]
      rfl

end Deployment

/-- While remote repositories may not be asked, resolving a key and running a pipeline ask local
repositories only and give what these determine. Fresh reads and plans of builds do so if and only
if the repository that they are given is a local one, or there is nothing to plan. -/
theorem reads_are_local (key : MetadataKey) (p : Pipeline) (a : Artifact) (r : Repository)
    (rs : List Repository) (asked now : Moment) :
    IsLocal (fun g => g.resolve key rs now) ∧
    IsLocal (fun g => p.run a rs now g) ∧
    (IsLocal (fun g => g.resolveFresh key r now) ↔ r.isLocal = true) ∧
    (IsLocal (fun g => Deployment.prepare a r asked now g) ↔
      r.isLocal = true ∨ ∀ base ∈ a.effective.map Version.base, base.isOpenSnapshot = false) :=
  ⟨(Registry.keepsLocal_resolve key rs now).isLocal, (p.keepsLocal_run a rs now).isLocal,
    Registry.isLocal_resolveFresh_iff key r now, Deployment.isLocal_prepare_iff a r asked now⟩

end Mediation
