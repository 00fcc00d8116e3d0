import Mediation.Proofs.Json.Record
import Mediation.Settings.Layers

/-! # Settings in layers

Whatever settings say of one thing is what the highest layer says that speaks of it: the overrides,
the environment, the file, the defaults. Only repositories add up. These are the settings that are
loaded, if they are usable and all that was to be read does read: a variable that does not keeps any
settings from being loaded, even if an override would have taken its place.
-/

namespace Mediation

def SettingsFile.field? (name : Text) : SettingsFile → Option Json
  | present text => (Json.read? text).bind fun j => j.field? Settings.fieldNames name
  | _ => none

def SettingsFile.repositories? (file : SettingsFile) : Option (List RepositoryDefinition) :=
  (file.field? "repositories").bind (Json.list? RepositoryDefinition.ofJson?)

/-- One thing that settings say: its field in a file, its variable in the environment, how both are
read, and its override. -/
structure Item (α : Type) where
  get : Settings → α
  field : Text
  ofJson? : Json → Option α
  key : Text
  ofText? : Text → Option α
  override? : Overrides → Option α

namespace Item

variable {α : Type}

def inFile? (x : Item α) (file : SettingsFile) : Option α :=
  (file.field? x.field).bind x.ofJson?

def inEnvironment? (x : Item α) (env : Option Environment) : Option α :=
  env.bind fun e => (EnvironmentLayer.value? e x.key).bind x.ofText?

def value (x : Item α) (file : SettingsFile) (env : Option Environment) (o : Overrides) : α :=
  (((x.override? o).or (x.inEnvironment? env)).or (x.inFile? file)).getD (x.get .standard)

def Misreads (x : Item α) (e : Environment) : Prop :=
  ∃ t, EnvironmentLayer.value? e x.key = some t ∧ x.ofText? t = none

def offline : Item Bool where
  get := Settings.offline
  field := "offline"
  ofJson? := Json.bool?
  key := "MAESTRO_OFFLINE"
  ofText? := Setting.switch?
  override? := Overrides.offline

def strict : Item Bool where
  get := Settings.strict
  field := "strict"
  ofJson? := Json.bool?
  key := "MAESTRO_STRICT"
  ofText? := Setting.switch?
  override? := Overrides.strict

def policy : Item Policy where
  get := Settings.policy
  field := "conflict-policy"
  ofJson? := Settings.policyOfJson?
  key := "MAESTRO_CONFLICT_POLICY"
  ofText? := Policy.read?
  override? := Overrides.policy

def maxFetches : Item Nat where
  get := Settings.maxFetches
  field := "max-concurrent-fetches"
  ofJson? := Json.natBelow? Text.word64
  key := "MAESTRO_MAX_CONCURRENT_FETCHES"
  ofText? := Setting.count?
  override? _ := none

def fetchTimeout : Item Nat where
  get := Settings.fetchTimeout
  field := "fetch-timeout-secs"
  ofJson? := Json.natBelow? Text.word64
  key := "MAESTRO_FETCH_TIMEOUT"
  ofText? := Duration.seconds?
  override? _ := none

def resolutionTimeout : Item Nat where
  get := Settings.resolutionTimeout
  field := "resolution-timeout-secs"
  ofJson? := Json.natBelow? Text.word64
  key := "MAESTRO_RESOLUTION_TIMEOUT"
  ofText? := Duration.seconds?
  override? _ := none

def scopeFilter : Item (Option Scope) where
  get := Settings.scopeFilter
  field := "scope-filter"
  ofJson? := Json.optional? Scope.ofJson?
  key := "MAESTRO_SCOPE"
  ofText? t := (Scope.read? t).map some
  override? o := o.scopeFilter.map some

def localRepository : Item (Option Text) where
  get := Settings.localRepository
  field := "local-repository"
  ofJson? := Json.optional? Json.text?
  key := "MAESTRO_LOCAL_REPOSITORY"
  ofText? t := some (some t.trim)
  override? _ := none

def all : List (Σ α, Item α) :=
  [⟨_, offline⟩, ⟨_, strict⟩, ⟨_, policy⟩, ⟨_, maxFetches⟩, ⟨_, fetchTimeout⟩,
    ⟨_, resolutionTimeout⟩, ⟨_, scopeFilter⟩, ⟨_, localRepository⟩]

end Item

theorem Json.eq_getD_of_orDefault? {α : Type} {default a : α} {read : Json → Option α}
    {field : Option Json} (h : orDefault? default read field = some a) :
    a = (field.bind read).getD default := by
  cases field with
  | none => exact (Option.some.inj h).symm
  | some j =>
    have hread : read j = some a := h
    rw [Option.bind_some, hread, Option.getD_some]

namespace Settings

variable {j : Json} {s : Settings} {file : SettingsFile}

/-- Settings that are read from JSON say what its fields say, and the defaults for the rest. -/
theorem get_of_ofJson? (h : ofJson? j = some s) :
    (∀ x ∈ Item.all, x.2.get s = ((j.field? fieldNames x.2.field).bind x.2.ofJson?).getD
      (x.2.get .standard)) ∧
    s.repositories = ((j.field? fieldNames "repositories").bind
      (Json.list? RepositoryDefinition.ofJson?)).getD standard.repositories := by
  rw [ofJson?] at h
  obtain ⟨fields, hfields, h⟩ := Option.bind_eq_some_iff.mp h
  rw [Json.eq_map_of_fields? (by decide) hfields] at h
  simp only [fieldNames, List.map_cons, List.map_nil] at h
  obtain ⟨policy, hpolicy, h⟩ := Option.bind_eq_some_iff.mp h
  obtain ⟨offline, hoffline, h⟩ := Option.bind_eq_some_iff.mp h
  obtain ⟨strict, hstrict, h⟩ := Option.bind_eq_some_iff.mp h
  obtain ⟨maxFetches, hmaxFetches, h⟩ := Option.bind_eq_some_iff.mp h
  obtain ⟨fetchTimeout, hfetchTimeout, h⟩ := Option.bind_eq_some_iff.mp h
  obtain ⟨resolutionTimeout, hresolutionTimeout, h⟩ := Option.bind_eq_some_iff.mp h
  obtain ⟨scopeFilter, hscopeFilter, h⟩ := Option.bind_eq_some_iff.mp h
  obtain ⟨localRepository, hlocalRepository, h⟩ := Option.bind_eq_some_iff.mp h
  obtain ⟨repositories, hrepositories, h⟩ := Option.bind_eq_some_iff.mp h
  obtain rfl := Option.some.inj h
  constructor
  · simp only [Item.all, List.forall_mem_cons]
    exact ⟨Json.eq_getD_of_orDefault? hoffline, Json.eq_getD_of_orDefault? hstrict,
      Json.eq_getD_of_orDefault? hpolicy, Json.eq_getD_of_orDefault? hmaxFetches,
      Json.eq_getD_of_orDefault? hfetchTimeout, Json.eq_getD_of_orDefault? hresolutionTimeout,
      Json.eq_getD_of_orDefault? hscopeFilter, Json.eq_getD_of_orDefault? hlocalRepository,
      List.forall_mem_nil _⟩
  · exact Json.eq_getD_of_orDefault? hrepositories

theorem get_of_orStandard (h : file.orStandard = .ok s) :
    (∀ x ∈ Item.all, x.2.get s = (x.2.inFile? file).getD (x.2.get .standard)) ∧
      s.repositories = file.repositories?.getD standard.repositories := by
  cases file with
  | absent =>
    obtain rfl := Except.ok.inj h
    exact ⟨fun _ _ => rfl, rfl⟩
  | unreadable => cases h
  | present text =>
    have hdocument : ofDocument text = .ok s := h
    rw [ofDocument] at hdocument
    split at hdocument
    · rename_i read hread
      obtain ⟨j, hj, hs⟩ := Option.bind_eq_some_iff.mp hread
      obtain rfl := Except.ok.inj hdocument
      have hfield : ∀ name, (SettingsFile.present text).field? name = j.field? fieldNames name := by
        intro name
        rw [SettingsFile.field?, hj, Option.bind_some]
      simp only [Item.inFile?, SettingsFile.repositories?, hfield]
      exact get_of_ofJson? hs
    · cases hdocument

end Settings

theorem exists_of_bind_eq_ok {ε α β : Type} {x : Except ε α} {f : α → Except ε β} {b : β}
    (h : x >>= f = .ok b) : ∃ a, x = .ok a ∧ f a = .ok b := by
  cases x with
  | error err => cases h
  | ok a => exact ⟨a, rfl, h⟩

namespace EnvironmentLayer

variable {e : Environment} {l : EnvironmentLayer} {s : Settings}

theorem readValue_eq_ok_iff {α : Type} {key : Text} {expected : Expected} {read : Text → Option α}
    {o : Option α} :
    readValue e key (fun key t => Setting.orInvalid key t expected (read t)) = .ok o ↔
      (value? e key).map read = o.map some := by
  rw [readValue]
  cases value? e key with
  | none => cases o <;> simp
  | some t => cases hread : read t <;> cases o <;> simp [Setting.orInvalid, hread, Except.map]

theorem exists_readValue {α : Type} {key : Text} {expected : Expected} {read : Text → Option α}
    (h : ¬ ∃ t, value? e key = some t ∧ read t = none) :
    ∃ o, readValue e key (fun key t => Setting.orInvalid key t expected (read t)) = .ok o := by
  simp only [readValue_eq_ok_iff]
  cases hvalue : value? e key with
  | none => exact ⟨none, rfl⟩
  | some t =>
    cases hread : read t with
    | none => exact absurd ⟨t, hvalue, hread⟩ h
    | some a => exact ⟨some a, congrArg some hread⟩

theorem speaks_of_reading {α : Type} {x : Item α} {o : Option α}
    (h : (value? e x.key).map x.ofText? = o.map some) :
    o = x.inEnvironment? (some e) ∧ ¬ x.Misreads e := by
  simp only [Item.inEnvironment?, Item.Misreads, Option.bind_some]
  cases hvalue : value? e x.key with
  | none => cases o <;> simp_all
  | some t => cases o <;> simp_all

/-- What a variable sets is what it says, and it reads if it has a value. -/
theorem get_apply_of_reading {α : Type} {x : Item α} {o : Option α}
    (h : (value? e x.key).map x.ofText? = o.map some)
    (happly : x.get (l.apply s) = o.getD (x.get s)) :
    x.get (l.apply s) = (x.inEnvironment? (some e)).getD (x.get s) ∧ ¬ x.Misreads e := by
  obtain ⟨rfl, hreads⟩ := speaks_of_reading h
  exact ⟨happly, hreads⟩

/-- The same for a variable of which settings may have no value at all. -/
theorem get_apply_of_optional {β : Type} {x : Item (Option β)} {o : Option β}
    {read : Text → Option β} (hx : x.ofText? = fun t => (read t).map some)
    (h : (value? e x.key).map read = o.map some) (happly : x.get (l.apply s) = o.or (x.get s)) :
    x.get (l.apply s) = (x.inEnvironment? (some e)).getD (x.get s) ∧ ¬ x.Misreads e := by
  have hread : (value? e x.key).map x.ofText? = (o.map some).map some := by
    have hmap := congrArg (Option.map (Option.map some)) h
    rw [Option.map_map] at hmap
    rw [hx]
    exact hmap.trans (by cases o <;> rfl)
  apply get_apply_of_reading hread
  rw [happly]
  cases o <;> rfl

/-- What the environment sets is what its variables say, each of which reads if it has a value. -/
theorem get_apply_of_read (h : read e = .ok l) (s : Settings) : ∀ x ∈ Item.all,
    x.2.get (l.apply s) = (x.2.inEnvironment? (some e)).getD (x.2.get s) ∧ ¬ x.2.Misreads e := by
  rw [read] at h
  obtain ⟨offline, hoffline, h⟩ := exists_of_bind_eq_ok h
  obtain ⟨strict, hstrict, h⟩ := exists_of_bind_eq_ok h
  obtain ⟨policy, hpolicy, h⟩ := exists_of_bind_eq_ok h
  obtain ⟨maxFetches, hmaxFetches, h⟩ := exists_of_bind_eq_ok h
  obtain ⟨fetchTimeout, hfetchTimeout, h⟩ := exists_of_bind_eq_ok h
  obtain ⟨resolutionTimeout, hresolutionTimeout, h⟩ := exists_of_bind_eq_ok h
  obtain ⟨scopeFilter, hscopeFilter, h⟩ := exists_of_bind_eq_ok h
  obtain ⟨localRepository, hlocalRepository, h⟩ := exists_of_bind_eq_ok h
  obtain rfl := Except.ok.inj h
  simp only [Item.all, List.forall_mem_cons]
  refine ⟨?offline, ?strict, ?policy, ?maxFetches, ?fetchTimeout, ?resolutionTimeout, ?scopeFilter,
    ?localRepository, List.forall_mem_nil _⟩
  case offline =>
    exact get_apply_of_reading (x := .offline) (readValue_eq_ok_iff.mp hoffline) rfl
  case strict =>
    exact get_apply_of_reading (x := .strict) (readValue_eq_ok_iff.mp hstrict) rfl
  case policy =>
    exact get_apply_of_reading (x := .policy) (readValue_eq_ok_iff.mp hpolicy) rfl
  case maxFetches =>
    exact get_apply_of_reading (x := .maxFetches) (readValue_eq_ok_iff.mp hmaxFetches) rfl
  case fetchTimeout =>
    exact get_apply_of_reading (x := .fetchTimeout) (readValue_eq_ok_iff.mp hfetchTimeout) rfl
  case resolutionTimeout =>
    exact get_apply_of_reading (x := .resolutionTimeout) (readValue_eq_ok_iff.mp hresolutionTimeout)
      rfl
  case scopeFilter =>
    exact get_apply_of_optional (x := .scopeFilter) rfl (readValue_eq_ok_iff.mp hscopeFilter) rfl
  case localRepository =>
    -- every text is the path of a directory, so it does not matter what else would be expected
    have hvalue : readValue e Item.localRepository.key (fun key t =>
        Setting.orInvalid key t .switch (some t.trim)) = .ok localRepository := hlocalRepository
    exact get_apply_of_optional (x := .localRepository) rfl (readValue_eq_ok_iff.mp hvalue) rfl

/-- Variables are read unless one of them has a value that does not read. -/
theorem exists_read (h : ∀ x ∈ Item.all, ¬ x.2.Misreads e) : ∃ l, read e = .ok l := by
  simp only [Item.all, List.forall_mem_cons] at h
  obtain ⟨hoffline, hstrict, hpolicy, hmaxFetches, hfetchTimeout, hresolutionTimeout, hscopeFilter,
    -, -⟩ := h
  have hscope : ¬ ∃ t, value? e Item.scopeFilter.key = some t ∧ Scope.read? t = none := by
    rintro ⟨t, ht, hnone⟩
    exact hscopeFilter ⟨t, ht, Option.map_eq_none_iff.mpr hnone⟩
  obtain ⟨_, hoffline⟩ : ∃ o, readValue e "MAESTRO_OFFLINE" Setting.readSwitch = .ok o :=
    exists_readValue hoffline
  obtain ⟨_, hstrict⟩ : ∃ o, readValue e "MAESTRO_STRICT" Setting.readSwitch = .ok o :=
    exists_readValue hstrict
  obtain ⟨_, hpolicy⟩ : ∃ o, readValue e "MAESTRO_CONFLICT_POLICY" Setting.readPolicy = .ok o :=
    exists_readValue hpolicy
  obtain ⟨_, hmaxFetches⟩ : ∃ o, readValue e "MAESTRO_MAX_CONCURRENT_FETCHES" readCount = .ok o :=
    exists_readValue hmaxFetches
  obtain ⟨_, hfetchTimeout⟩ :
      ∃ o, readValue e "MAESTRO_FETCH_TIMEOUT" Setting.readDuration = .ok o :=
    exists_readValue hfetchTimeout
  obtain ⟨_, hresolutionTimeout⟩ :
      ∃ o, readValue e "MAESTRO_RESOLUTION_TIMEOUT" Setting.readDuration = .ok o :=
    exists_readValue hresolutionTimeout
  obtain ⟨_, hscope⟩ : ∃ o, readValue e "MAESTRO_SCOPE" readScope = .ok o :=
    exists_readValue hscope
  obtain ⟨_, hlocal⟩ :
      ∃ o, readValue e "MAESTRO_LOCAL_REPOSITORY" (fun _ t => .ok t.trim) = .ok o := by
    rw [readValue]
    cases value? e "MAESTRO_LOCAL_REPOSITORY" <;> exact ⟨_, rfl⟩
  simp only [read, hoffline, hstrict, hpolicy, hmaxFetches, hfetchTimeout, hresolutionTimeout,
    hscope, hlocal]
  exact ⟨_, rfl⟩

end EnvironmentLayer

theorem Overrides.get_apply (o : Overrides) (s : Settings) :
    ∀ x ∈ Item.all, x.2.get (o.apply s) = (x.2.override? o).getD (x.2.get s) := by
  have hscope : (o.apply s).scopeFilter = (o.scopeFilter.map some).getD s.scopeFilter := by
    simp only [Overrides.apply]
    cases o.scopeFilter <;> rfl
  simp only [Item.all, List.forall_mem_cons]
  exact ⟨rfl, rfl, rfl, rfl, rfl, rfl, hscope, rfl, List.forall_mem_nil _⟩

namespace Settings

variable {s : Settings} {file : SettingsFile} {env : Option Environment} {o : Overrides}
  {seen ids : List Text}

theorem idFault?_eq_none_iff : idFault? seen ids = none ↔
    (∀ id ∈ ids, Text.allBlank id = false ∧ id ∉ seen) ∧ ids.Nodup := by
  induction ids generalizing seen with
  | nil => simp [idFault?]
  | cons id ids ih =>
    rw [idFault?]
    cases hblank : Text.allBlank id with
    | true => simp [hblank]
    | false =>
      by_cases hseen : id ∈ seen
      · simp [hseen]
      · rw [List.forall_mem_cons, List.nodup_cons]
        simp only [hseen, List.contains_eq_mem, decide_false, Bool.false_eq_true, if_false, ih,
          List.mem_cons, not_or]
        constructor
        · rintro ⟨hall, hnodup⟩
          have hrest : ∀ i ∈ ids, Text.allBlank i = false ∧ i ∉ seen := fun i hi =>
            ⟨(hall i hi).1, (hall i hi).2.2⟩
          exact ⟨⟨⟨hblank, not_false⟩, hrest⟩, fun hid => (hall id hid).2.1 rfl, hnodup⟩
        · rintro ⟨⟨-, hall⟩, hid, hnodup⟩
          exact ⟨fun i hi => ⟨(hall i hi).1, fun heq => hid (heq ▸ hi), (hall i hi).2⟩, hnodup⟩

structure IsUsable (s : Settings) : Prop where
  fetches : 1 ≤ s.maxFetches
  named : ∀ r ∈ s.repositories, Text.allBlank r.id = false
  distinct : (s.repositories.map (·.id)).Nodup

theorem fault?_eq_none_iff : s.fault? = none ↔ s.IsUsable := by
  rw [fault?]
  constructor
  · intro h
    split at h
    · cases h
    · rename_i hfetches
      obtain ⟨hids, hdistinct⟩ := idFault?_eq_none_iff.mp h
      constructor
      · omega
      · intro r hr
        exact (hids r.id (List.mem_map_of_mem hr)).1
      · exact hdistinct
  · rintro ⟨hfetches, hnamed, hdistinct⟩
    rw [if_neg (by omega), idFault?_eq_none_iff]
    constructor
    · intro id hid
      obtain ⟨r, hr, rfl⟩ := List.mem_map.mp hid
      exact ⟨hnamed r hr, List.not_mem_nil⟩
    · exact hdistinct

theorem validate_eq_ok_iff : s.validate = .ok () ↔ s.IsUsable := by
  rw [validate, ← fault?_eq_none_iff]
  split <;> simp_all

def under (env : Option Environment) (s : Settings) : Except SettingsError Settings :=
  match env with
  | none => .ok s
  | some e => (EnvironmentLayer.read e).map (·.apply s)

theorem load_eq (file : SettingsFile) (env : Option Environment) (o : Overrides) :
    load file env o = (do
      let base ← file.orStandard
      let t ← under env base
      (o.apply t).validate
      return o.apply t) := by
  cases env <;> rfl

/-- Whether each variable that has a value reads, as far as the environment is to be read. -/
def AllRead (env : Option Environment) : Prop :=
  ∀ e, env = some e → ∀ x ∈ Item.all, ¬ x.2.Misreads e

theorem get_of_under {t : Settings} (h : under env s = .ok t) :
    (∀ x ∈ Item.all, x.2.get t = (x.2.inEnvironment? env).getD (x.2.get s)) ∧
      AllRead env ∧ t.repositories = s.repositories := by
  cases env with
  | none =>
    obtain rfl := Except.ok.inj h
    have hread : AllRead none := nofun
    exact ⟨fun _ _ => rfl, hread, rfl⟩
  | some e =>
    rw [under] at h
    cases hread : EnvironmentLayer.read e with
    | error err =>
      rw [hread] at h
      cases h
    | ok l =>
      rw [hread] at h
      obtain rfl := Except.ok.inj h
      have hget := EnvironmentLayer.get_apply_of_read hread s
      constructor
      · exact fun x hx => (hget x hx).1
      constructor
      · rintro _ ⟨⟩ x hx
        exact (hget x hx).2
      · rfl

theorem exists_under (h : AllRead env) (s : Settings) : ∃ t, under env s = .ok t := by
  cases env with
  | none => exact ⟨s, rfl⟩
  | some e =>
    obtain ⟨l, hl⟩ := EnvironmentLayer.exists_read (h e rfl)
    exact ⟨l.apply s, by rw [under, hl]; rfl⟩

/-- What layers come to: each thing is what the highest layer says that speaks of it, and the extra
repositories follow those of the file. -/
structure Layers (file : SettingsFile) (env : Option Environment) (o : Overrides) (s : Settings) :
    Prop where
  items : ∀ x ∈ Item.all, x.2.get s = x.2.value file env o
  repositories :
    s.repositories = file.repositories?.getD standard.repositories ++ o.extraRepositories

theorem Layers.unique {t : Settings} (hs : Layers file env o s) (ht : Layers file env o t) :
    s = t := by
  have hitems : ∀ x ∈ Item.all, x.2.get s = x.2.get t := fun x hx =>
    (hs.items x hx).trans (ht.items x hx).symm
  have hrepositories := hs.repositories.trans ht.repositories.symm
  simp only [Item.all, List.forall_mem_cons] at hitems
  obtain ⟨hoffline, hstrict, hpolicy, hmaxFetches, hfetchTimeout, hresolutionTimeout, hscopeFilter,
    hlocalRepository, -⟩ := hitems
  cases s
  cases t
  cases hoffline
  cases hstrict
  cases hpolicy
  cases hmaxFetches
  cases hfetchTimeout
  cases hresolutionTimeout
  cases hscopeFilter
  cases hlocalRepository
  cases hrepositories
  rfl

theorem layers_of_under {base t : Settings} (hbase : file.orStandard = .ok base)
    (ht : under env base = .ok t) : Layers file env o (o.apply t) := by
  obtain ⟨hfile, hlisted⟩ := get_of_orStandard hbase
  obtain ⟨henv, -, hkept⟩ := get_of_under ht
  exact {
    items x hx := by
      rw [o.get_apply t x hx, henv x hx, hfile x hx, Item.value]
      cases x.2.override? o <;> cases x.2.inEnvironment? env <;> rfl
    repositories := by
      have hadded : (o.apply t).repositories = t.repositories ++ o.extraRepositories := rfl
      rw [hadded, hkept, hlisted] }

theorem load_eq_ok_iff : load file env o = .ok s ↔
    (∃ base, file.orStandard = .ok base) ∧ AllRead env ∧ Layers file env o s ∧ s.IsUsable := by
  rw [load_eq]
  constructor
  · intro h
    obtain ⟨base, hbase, h⟩ := exists_of_bind_eq_ok h
    obtain ⟨t, ht, h⟩ := exists_of_bind_eq_ok h
    obtain ⟨⟨⟩, hvalid, h⟩ := exists_of_bind_eq_ok h
    obtain rfl := Except.ok.inj h
    exact ⟨⟨base, hbase⟩, (get_of_under ht).2.1, layers_of_under hbase ht,
      validate_eq_ok_iff.mp hvalid⟩
  · rintro ⟨⟨base, hbase⟩, hreads, hlayers, husable⟩
    obtain ⟨t, ht⟩ := exists_under hreads base
    obtain rfl := hlayers.unique (layers_of_under hbase ht)
    simp only [hbase, ht, validate_eq_ok_iff.mpr husable, bind, Except.bind]
    rfl

/-- Settings are loaded exactly if the file reads, every variable that has a value reads, and what
the layers come to is usable. In particular a variable that does not read keeps them from being
loaded, whatever the overrides. -/
theorem load_layers (file : SettingsFile) (env : Option Environment) (o : Overrides) :
    (∀ s, load file env o = .ok s ↔
      (∃ base, file.orStandard = .ok base) ∧ AllRead env ∧ Layers file env o s ∧ s.IsUsable) ∧
      ((∃ e, env = some e ∧ ∃ x ∈ Item.all, x.2.Misreads e) →
        ∃ err, load file env o = .error err) := by
  constructor
  · intro s
    exact load_eq_ok_iff
  · rintro ⟨e, he, x, hx, hmisreads⟩
    cases h : load file env o with
    | error err => exact ⟨err, rfl⟩
    | ok s =>
      obtain ⟨-, hreads, -⟩ := load_eq_ok_iff.mp h
      exact absurd hmisreads (hreads e he x hx)

def sampleFile : SettingsFile := .present
  "\x7b\"conflict-policy\": \"newest\", \"offline\": true, \"repositories\": []\x7d"

def sampleEnvironment (key value : Text) : Environment := fun name =>
  if name = Item.maxFetches.key then some " 8 "
  else if name = Item.policy.key then some " "
  else if name = key then some value
  else none

theorem load_layers_of_sample :
    (∃ s, load sampleFile (some (sampleEnvironment "MAESTRO_STRICT" "on"))
        ⟨some false, none, none, none, []⟩ = .ok s ∧
      Layers sampleFile (some (sampleEnvironment "MAESTRO_STRICT" "on"))
        ⟨some false, none, none, none, []⟩ s) ∧
      ∃ err, load sampleFile (some (sampleEnvironment "MAESTRO_OFFLINE" "maybe"))
        ⟨some false, none, none, none, []⟩ = .error err := by
  have hload : load sampleFile (some (sampleEnvironment "MAESTRO_STRICT" "on"))
      ⟨some false, none, none, none, []⟩ =
        .ok ⟨.newest, false, true, 8, 30, 300, none, none, []⟩ := by decide +kernel
  have hlayers := load_layers sampleFile (some (sampleEnvironment "MAESTRO_STRICT" "on"))
    ⟨some false, none, none, none, []⟩
  have hrefused := load_layers sampleFile (some (sampleEnvironment "MAESTRO_OFFLINE" "maybe"))
    ⟨some false, none, none, none, []⟩
  constructor
  · obtain ⟨-, -, hsample, -⟩ := (hlayers.1 _).mp hload
    exact ⟨_, hload, hsample⟩
  · apply hrefused.2
    refine ⟨_, rfl, ⟨_, Item.offline⟩, List.mem_cons_self, "maybe", ?_, ?_⟩
    · decide +kernel
    · decide +kernel

end Settings

end Mediation
