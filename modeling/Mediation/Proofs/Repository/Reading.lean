import Mathlib.Data.List.Nodup
import Mediation.Proofs.Repository.Asking
import Mediation.Repository.Operation

/-! # What reads of metadata tell

A repository tells what is at hand for it, or else what the store holds. To ask it may replace what
is at hand by what the store holds, which changes nothing that is told at that moment as long as
repositories of one id tell the same. So the merged envelope of a key depends on what the
repositories of a list tell, and reading it once more gives it once more.
-/

namespace Mediation

namespace MemoryStore

def IsFiled (s : MemoryStore) : Prop :=
  ∀ repository key e, s.get? repository key = some e → e.key = key

variable {s : MemoryStore}

theorem isFiled_empty : empty.IsFiled := by
  intro repository key e h
  cases h

theorem get?_put_self {key : MetadataKey} {e : Envelope} (he : e.key = key) (repository : Text) :
    (s.put repository e).get? repository key = some e := by
  subst he
  exact Table.get?_put_self ..

theorem IsFiled.put (h : s.IsFiled) (repository : Text) (e : Envelope) :
    (s.put repository e).IsFiled := by
  intro other key found hf
  by_cases heq : (other, key) = (repository, e.key)
  · obtain ⟨rfl, rfl⟩ := Prod.mk.inj heq
    rw [get?_put_self rfl] at hf
    exact congrArg Envelope.key (Option.some.inj hf).symm
  · exact h other key found (by rwa [get?, MemoryStore.put, Table.get?_put_of_ne _ heq] at hf)

theorem IsFiled.of_envelopes {t : MemoryStore} (h : s.IsFiled) (he : t.envelopes = s.envelopes) :
    t.IsFiled := by
  intro repository key e hf
  rw [get?, he] at hf
  exact h repository key e hf

variable {key : MetadataKey} {r : Repository} {found : Option Envelope}

theorem eq_of_answer (hf : s.answer key r = .ok found) :
    found = s.get? r.id key := by
  rw [answer] at hf
  split at hf
  · cases hf
  · exact (Except.ok.inj hf).symm

theorem answer_put_self {e : Envelope} (he : e.key = key)
    (hf : s.answer key r = .ok found) : (s.put r.id e).answer key r = .ok (some e) := by
  rw [answer] at hf ⊢
  split at hf
  · cases hf
  · rename_i hnone
    have hput : (s.put r.id e).failures.get? (r.id, key) = none := hnone
    rw [hput, get?_put_self he]

end MemoryStore

def Repository.mirror (policy : UpdatePolicy) : Repository :=
  ⟨"mirror", .remote (.ofDirectory "/mirror"), policy⟩

namespace Registry

variable {g h : InMemory} {key k : MetadataKey} {r r' : Repository} {rs : List Repository}
  {now : Moment}

/-- What a repository tells: what is at hand, or else what the store answers. -/
def told (g : InMemory) (key : MetadataKey) (r : Repository) (now : Moment) : Answer :=
  match g.atHand? key r now with
  | some a => .ok a.envelope
  | none => g.store.answer key r

/-- Whether repositories of one id tell the same. So they do if nothing is at hand for them, or if
they agree on what is stale. -/
def IsEven (g : InMemory) (rs : List Repository) (now : Moment) : Prop :=
  ∀ key, ∀ r ∈ rs, ∀ r' ∈ rs, r.id = r'.id → g.told key r now = g.told key r' now

structure Agrees (rs : List Repository) (now : Moment) (g h : InMemory) : Prop where
  online : h.isOnline = g.isOnline
  told : ∀ key, ∀ r ∈ rs, h.told key r now = g.told key r now

theorem Agrees.refl (rs : List Repository) (now : Moment) (g : InMemory) : Agrees rs now g g :=
  ⟨rfl, fun _ _ _ => rfl⟩

theorem Agrees.trans {i : InMemory} (hg : Agrees rs now g h) (hh : Agrees rs now h i) :
    Agrees rs now g i :=
  ⟨hh.online.trans hg.online, fun key r hr => (hh.told key r hr).trans (hg.told key r hr)⟩

theorem IsEven.of_agrees (hg : g.IsEven rs now) (h' : Agrees rs now g h) : h.IsEven rs now := by
  intro key r hr r' hr' hid
  rw [h'.told key r hr, h'.told key r' hr', hg key r hr r' hr' hid]

theorem isEven_singleton (g : InMemory) (r : Repository) (now : Moment) : g.IsEven [r] now := by
  intro key r₁ h₁ r₂ h₂ _
  rw [List.mem_singleton.mp h₁, List.mem_singleton.mp h₂]

theorem answer_of_id (s : MemoryStore) (hid : r.id = r'.id) : s.answer key r = s.answer key r' := by
  rw [MemoryStore.answer, MemoryStore.answer, hid]

theorem isEven_of_nothing (hg : ∀ key, ∀ r ∈ rs, g.atHand? key r now = none) :
    g.IsEven rs now := by
  intro key r hr r' hr' hid
  rw [told, told, hg key r hr, hg key r' hr']
  exact answer_of_id g.store hid

theorem isEven_ofStore (s : MemoryStore) (rs : List Repository) (now : Moment) :
    (Registry.ofStore s).IsEven rs now := by
  refine isEven_of_nothing fun key r _ => ?_
  rw [atHand?]
  split <;> rfl

theorem isEven_of_policies (hrs : ∀ r ∈ rs, ∀ r' ∈ rs, r.id = r'.id →
    r.policy = r'.policy ∧ r.isLocal = r'.isLocal) : g.IsEven rs now := by
  intro key r hr r' hr' hid
  obtain ⟨hp, hl⟩ := hrs r hr r' hr' hid
  rw [told, told, atHand?, atHand?, hl, hp, hid, answer_of_id g.store hid]

theorem isEven_of_nodup (hrs : (rs.map (·.id)).Nodup) : g.IsEven rs now :=
  isEven_of_policies fun r hr r' hr' hid => by
    rw [List.inj_on_of_nodup_map hrs hr hr' hid]
    exact ⟨rfl, rfl⟩

theorem ask_of_atHand {a : CachedAnswer} (ha : g.atHand? key r now = some a) :
    g.ask key r now = (.ok a.envelope, { g with cache := g.cache.hit }) := by
  rw [ask, ha]

theorem ask_of_error {e : RetrievalError} (ha : g.atHand? key r now = none)
    (he : g.store.answer key r = .error e) :
    g.ask key r now =
      (.error e, ⟨{ g.store with fetches := g.store.fetches + 1 }, g.cache.miss⟩) := by
  simp only [ask, ha, fetch, Store.fetch, he]

theorem ask_of_ok {found : Option Envelope} (ha : g.atHand? key r now = none)
    (hf : g.store.answer key r = .ok found) :
    g.ask key r now = (.ok found, ⟨{ g.store with fetches := g.store.fetches + 1 },
      if r.isLocal then g.cache.miss else g.cache.miss.record r.id key ⟨found, now⟩⟩) := by
  simp only [ask, ha, fetch, Store.fetch, hf]

theorem told_of_none (ha : g.atHand? key r now = none) :
    g.told key r now = g.store.answer key r := by
  rw [told, ha]

theorem ask_fst (g : InMemory) (key : MetadataKey) (r : Repository) (now : Moment) :
    (g.ask key r now).1 = g.told key r now := by
  cases ha : g.atHand? key r now with
  | some a => rw [ask_of_atHand ha, told, ha]
  | none =>
    rw [told_of_none ha]
    cases hf : g.store.answer key r with
    | error e => rw [ask_of_error ha hf]
    | ok found => rw [ask_of_ok ha hf]

/-- What was told just now is at hand, if anything is, for every repository of that id. -/
theorem told_record {s : MemoryStore} {c : Cache} {found : Option Envelope} (hid : r'.id = r.id)
    (hf : s.answer key r = .ok found) :
    told ⟨s, c.record r.id key ⟨found, now⟩⟩ key r' now = .ok found := by
  have hl : (c.record r.id key ⟨found, now⟩).lookup? r'.id key = some ⟨found, now⟩ := by
    rw [hid]
    exact Table.get?_put_self ..
  have hf' : s.answer key r' = .ok found := (answer_of_id s hid).trans hf
  rw [told, atHand?]
  split <;> rename_i h
  · split at h
    · cases h
    · rw [hl] at h
      rw [← Option.some.inj (Option.filter_eq_some_iff.mp h).1]
  · exact hf'

theorem told_record_of_ne {s : MemoryStore} {c : Cache} {a : CachedAnswer}
    (hne : (r'.id, k) ≠ (r.id, key)) :
    told ⟨s, c.record r.id key a⟩ k r' now = told ⟨s, c⟩ k r' now := by
  have hl : (c.record r.id key a).lookup? r'.id k = c.lookup? r'.id k :=
    Table.get?_put_of_ne _ hne _
  rw [told, told, atHand?, atHand?, hl]

theorem agrees_ask (hg : g.IsEven rs now) (hr : r ∈ rs) (key : MetadataKey) :
    Agrees rs now g (g.ask key r now).2 := by
  cases ha : g.atHand? key r now with
  | some a =>
    rw [ask_of_atHand ha]
    exact ⟨rfl, fun _ _ _ => rfl⟩
  | none =>
    cases hf : g.store.answer key r with
    | error e =>
      rw [ask_of_error ha hf]
      exact ⟨rfl, fun _ _ _ => rfl⟩
    | ok found =>
      rw [ask_of_ok ha hf]
      refine ⟨rfl, fun k r' hr' => ?_⟩
      cases r.isLocal with
      | true => rfl
      | false =>
        -- The new answer replaces one for `r` only, but repositories of its id share it.
        by_cases hk : (r'.id, k) = (r.id, key)
        · obtain ⟨hid, rfl⟩ := Prod.mk.inj hk
          rw [hg k r' hr' r hr hid, told_of_none ha, hf]
          exact told_record hid hf
        · exact told_record_of_ne hk

/-- The merger of an envelope with what repositories tell, up to the first error. -/
def summary (g : InMemory) (key : MetadataKey) (now : Moment) (e : Envelope) :
    List Repository → Except RetrievalError Envelope
  | [] => .ok e
  | r :: rs =>
    match g.told key r now with
    | .error err => .error err
    | .ok found => g.summary key now (found.elim e e.merge) rs

theorem summary_congr (h' : Agrees rs now g h) {l : List Repository} (hl : ∀ r ∈ l, r ∈ rs)
    (key : MetadataKey) (e : Envelope) : h.summary key now e l = g.summary key now e l := by
  induction l generalizing e with
  | nil => rfl
  | cons r l ih =>
    rw [summary, summary, h'.told key r (hl r List.mem_cons_self)]
    split
    · rfl
    · exact ih (fun x hx => hl x (List.mem_cons_of_mem r hx)) _

theorem collect_eq (hg : g.IsEven rs now) {l : List Repository} (hl : ∀ r ∈ l, r ∈ rs)
    (key : MetadataKey) (e : Envelope) :
    (g.collect key now e l).1 = g.summary key now e l ∧
      Agrees rs now g (g.collect key now e l).2 := by
  induction l generalizing g e with
  | nil => exact ⟨rfl, .refl rs now g⟩
  | cons r l ih =>
    have ha := agrees_ask hg (hl r List.mem_cons_self) key
    have htold := g.ask_fst key r now
    have hl' : ∀ x ∈ l, x ∈ rs := fun x hx => hl x (List.mem_cons_of_mem r hx)
    rw [collect, summary, ← htold]
    generalize g.ask key r now = asked at ha
    obtain ⟨answer, g'⟩ := asked
    cases answer with
    | error err => exact ⟨rfl, ha⟩
    | ok found =>
      obtain ⟨hc, hc'⟩ := ih (hg.of_agrees ha) hl' (found.elim e e.merge)
      exact ⟨hc.trans (summary_congr ha hl' key _), ha.trans hc'⟩

def reachable (g : InMemory) (rs : List Repository) : List Repository :=
  (inOrder rs).filter fun r => r.isLocal || g.isOnline

theorem mem_of_reachable (hr : r ∈ g.reachable rs) : r ∈ rs :=
  mem_of_mem_inOrder (List.mem_filter.mp hr).1

theorem resolve_eq (hg : g.IsEven rs now) (key : MetadataKey) :
    (g.resolve key rs now).1 = g.summary key now (.forKey key) (g.reachable rs) ∧
      Agrees rs now g (g.resolve key rs now).2 := by
  obtain ⟨hc, ha⟩ := collect_eq hg (fun r => mem_of_reachable (g := g)) key (.forKey key)
  rw [← hc, resolve, ← reachable]
  generalize g.collect key now (.forKey key) (g.reachable rs) = collected at ha
  obtain ⟨merged, g'⟩ := collected
  cases merged with
  | error err => exact ⟨rfl, ha⟩
  | ok e => exact ⟨rfl, ha.online, ha.told⟩

theorem reachable_singleton (g : InMemory) (r : Repository) :
    g.reachable [r] = if r.isLocal || g.isOnline then [r] else [] := by
  rw [reachable, inOrder]
  cases hl : r.isLocal <;> cases g.isOnline <;> simp [hl]

theorem resolve_singleton {found : Option Envelope} (ht : g.told key r now = .ok found) :
    (g.resolve key [r] now).1 =
      .ok ((if r.isLocal || g.isOnline then found else none).elim (.forKey key)
        (Envelope.forKey key).merge) := by
  rw [(resolve_eq (g.isEven_singleton r now) key).1, reachable_singleton]
  split
  · rw [summary, ht]
    rfl
  · rfl

theorem resolve_of_agrees (hg : g.IsEven rs now) (h' : Agrees rs now g h) (key : MetadataKey) :
    (h.resolve key rs now).1 = (g.resolve key rs now).1 := by
  rw [(resolve_eq hg key).1, (resolve_eq (hg.of_agrees h') key).1, reachable, h'.online,
    ← reachable]
  exact summary_congr h' (fun r => mem_of_reachable (g := g)) key _

theorem envelopes_ask (g : InMemory) (key : MetadataKey) (r : Repository) (now : Moment) :
    (g.ask key r now).2.store.envelopes = g.store.envelopes := by
  cases ha : g.atHand? key r now with
  | some a => rw [ask_of_atHand ha]
  | none =>
    cases hf : g.store.answer key r with
    | error e => rw [ask_of_error ha hf]
    | ok found => rw [ask_of_ok ha hf]

theorem envelopes_resolve (g : InMemory) (key : MetadataKey) (rs : List Repository)
    (now : Moment) : (g.resolve key rs now).2.store.envelopes = g.store.envelopes := by
  refine resolve_preserves (P := fun h : InMemory => h.store.envelopes = g.store.envelopes)
    ?_ (fun _ _ hh => hh) rfl
  intro h r _ hh
  exact (h.envelopes_ask key r now).trans hh

theorem envelopes_resolveFresh (g : InMemory) (key : MetadataKey) (r : Repository)
    (now : Moment) : (g.resolveFresh key r now).2.store.envelopes = g.store.envelopes := by
  cases hf : g.store.answer key r <;> simp only [resolveFresh, Store.fetch, hf]

theorem isFiled_perform (hg : g.store.IsFiled) (op : Operation) :
    (g.perform op).2.store.IsFiled := by
  cases op with
  | put repository e => exact hg.put repository e
  | resolve key rs now => exact hg.of_envelopes (g.envelopes_resolve key rs now)
  | resolveFresh key r now => exact hg.of_envelopes (g.envelopes_resolveFresh key r now)
  | _ => exact hg

theorem isFiled_performAll (hg : g.store.IsFiled) (ops : List Operation) :
    (g.performAll ops).2.store.IsFiled := by
  induction ops generalizing g with
  | nil => exact hg
  | cons op ops ih => exact ih (isFiled_perform hg op)

end Registry

end Mediation
