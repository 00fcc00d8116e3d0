import Mediation.Proofs.Repository.Asking
import Mediation.Proofs.Repository.Reading

/-! # Interrupted reads

A repository that cannot be read ends the reading of a key. Nothing is merged then: the merged
envelopes stay as they were, and the answers that were kept on the way are those of the remote
repositories that came before, as they gave them at that moment.
-/

namespace Mediation.Registry

variable {σ : Type} [Store σ] {g : Registry σ} {key : MetadataKey} {r : Repository}
  {rs before : List Repository} {now : Moment} {err : RetrievalError}

def askAll (g : Registry σ) (key : MetadataKey) (now : Moment) (rs : List Repository) :
    Registry σ :=
  rs.foldl (fun g r => (g.ask key r now).2) g

/-- Whether all repositories of a list answer, and the repository behind them raises an error. -/
structure Interrupts (key : MetadataKey) (now : Moment) (g : Registry σ) (before : List Repository)
    (r : Repository) (err : RetrievalError) : Prop where
  answered : ∀ p r' q, before = p ++ r' :: q →
    ∃ found, ((g.askAll key now p).ask key r' now).1 = .ok found
  raised : (Store.fetch key r (g.askAll key now before).store).1 = .error err

/-- Whether a cache keeps an answer that a remote repository of a list gave just now. -/
def KeepsFresh (key : MetadataKey) (now : Moment) (g : Registry σ) (before : List Repository)
    (id : Text) (c : Cache) : Prop :=
  ∃ p r q found, before = p ++ r :: q ∧ r.isLocal = false ∧ r.id = id ∧
    (Store.fetch key r (g.askAll key now p).store).1 = .ok found ∧
    c.lookup? id key = some ⟨found, now⟩

/-- Whether the answers that a cache keeps are those of a registry, but for what remote repositories
of a list answered just now. -/
def Refreshes (key : MetadataKey) (now : Moment) (g : Registry σ) (before : List Repository)
    (c : Cache) : Prop :=
  ∀ id k, c.lookup? id k = g.cache.lookup? id k ∨ k = key ∧ KeepsFresh key now g before id c

theorem Interrupts.cons {r' : Repository} {found : Option Envelope}
    (hfound : (g.ask key r now).1 = .ok found)
    (h : Interrupts key now (g.ask key r now).2 before r' err) :
    Interrupts key now g (r :: before) r' err where
  answered p r'' q heq := by
    cases p with
    | nil =>
      obtain ⟨rfl, -⟩ := List.cons.inj heq
      exact ⟨found, hfound⟩
    | cons _ p =>
      obtain ⟨rfl, heq⟩ := List.cons.inj heq
      exact h.answered p r'' q (by simpa using heq)
  raised := h.raised

theorem KeepsFresh.cons {id : Text} {c : Cache}
    (h : KeepsFresh key now (g.ask key r now).2 before id c) :
    KeepsFresh key now g (r :: before) id c := by
  obtain ⟨p, r', q, found, rfl, h⟩ := h
  exact ⟨r :: p, r', q, found, rfl, h⟩

theorem Refreshes.cons {c : Cache} (h : Refreshes key now (g.ask key r now).2 before c) :
    Refreshes key now g (r :: before) c := by
  intro id k
  rcases h id k with heq | ⟨rfl, hfresh⟩
  · have hasks := g.asks_ask key r now
    rw [heq]
    generalize g.ask key r now = asked at hasks heq ⊢
    cases hasks with
    | reuses | fails | reads => simp
    | @refreshes found _ _ fetched isRemote =>
      rw [Cache.lookup?_record] at heq ⊢
      split
      · rename_i hplace
        obtain ⟨rfl, rfl⟩ := hplace
        rw [if_pos ⟨rfl, rfl⟩] at heq
        exact .inr ⟨rfl, [], r, before, found, rfl, isRemote, rfl, congrArg Prod.fst fetched, heq⟩
      · simp
  · exact .inr ⟨rfl, hfresh.cons⟩

theorem merged_ask (g : Registry σ) (key : MetadataKey) (r : Repository) (now : Moment) :
    (g.ask key r now).2.cache.merged = g.cache.merged := by
  have hasks := g.asks_ask key r now
  generalize g.ask key r now = asked at hasks
  cases hasks <;> rfl

theorem of_ask_error (h : (g.ask key r now).1 = .error err) :
    (Store.fetch key r g.store).1 = .error err ∧
      ∀ id k, (g.ask key r now).2.cache.lookup? id k = g.cache.lookup? id k := by
  have hasks := g.asks_ask key r now
  generalize g.ask key r now = asked at h hasks ⊢
  cases hasks with
  | reuses | reads | refreshes => cases h
  | fails hand fetched => exact ⟨congrArg Prod.fst fetched ▸ h, fun _ _ => rfl⟩

theorem collect_error (e : Envelope) (h : (g.collect key now e rs).1 = .error err) :
    ∃ before r after, rs = before ++ r :: after ∧ Interrupts key now g before r err ∧
      (g.collect key now e rs).2.cache.merged = g.cache.merged ∧
      Refreshes key now g before (g.collect key now e rs).2.cache := by
  induction rs generalizing g e with
  | nil => cases h
  | cons r rs ih =>
    rw [collect] at h ⊢
    rcases hask : g.ask key r now with ⟨err' | found, g'⟩
    · simp only [hask] at h ⊢
      obtain rfl := Except.error.inj h
      obtain ⟨hraised, hkept⟩ := of_ask_error (congrArg Prod.fst hask)
      refine ⟨[], r, rs, rfl, ⟨by simp, hraised⟩, ?_, fun id k => .inl ?_⟩
      · simpa only [hask] using g.merged_ask key r now
      · simpa only [hask] using hkept id k
    · simp only [hask] at h ⊢
      obtain ⟨before, r', after, rfl, hinterrupts, hmerged, hrefreshes⟩ := ih _ h
      obtain rfl : (g.ask key r now).2 = g' := congrArg Prod.snd hask
      exact ⟨r :: before, r', after, rfl, .cons (congrArg Prod.fst hask) hinterrupts,
        hmerged.trans (g.merged_ask key r now), hrefreshes.cons⟩

/-- Reading a key from several repositories ends at the first error. That leaves all merged
envelopes as they were, and the cache keeps other answers than before only of this key and of remote
repositories before the one that raised the error, each of them as the repository gave it at that
moment. -/
theorem resolve_interrupted (h : (g.resolve key rs now).1 = .error err) :
    ∃ before r after,
      (inOrder rs).filter (fun r => r.isLocal || g.isOnline) = before ++ r :: after ∧
      Interrupts key now g before r err ∧
      (g.resolve key rs now).2.cache.merged = g.cache.merged ∧
      Refreshes key now g before (g.resolve key rs now).2.cache := by
  rw [resolve] at h ⊢
  rcases hcollect : g.collect key now (.forKey key)
    ((inOrder rs).filter fun r => r.isLocal || g.isOnline) with ⟨err' | e, g'⟩
  · simp only [hcollect] at h ⊢
    simpa only [hcollect] using collect_error _ ((congrArg Prod.fst hcollect).trans h)
  · simp only [hcollect] at h
    cases h

def blocked : InMemory :=
  let held : Envelope := ⟨"g", "a", none, none, some "1", ["1"], none, none⟩
  .ofStore ((MemoryStore.empty.put "mirror" held).fail "central" held.key "503")

def scattered : List Repository :=
  [.mirror .daily, { Repository.mirror .daily with id := "central" }, .inDirectory "/m2"]

theorem resolve_interrupted_of_blocked :
    ∃ err before r after, (blocked.resolve ⟨"g", "a", none⟩ scattered 7).1 = .error err ∧
      inOrder scattered = before ++ r :: after ∧
      Interrupts ⟨"g", "a", none⟩ 7 blocked before r err ∧
      (blocked.resolve ⟨"g", "a", none⟩ scattered 7).2.cache.merged = blocked.cache.merged ∧
      Refreshes ⟨"g", "a", none⟩ 7 blocked before
        (blocked.resolve ⟨"g", "a", none⟩ scattered 7).2.cache := by
  have herror : (blocked.resolve ⟨"g", "a", none⟩ scattered 7).1 =
      .error (.unavailable ⟨"g", "a", none⟩ "central" "503") := by rfl
  obtain ⟨before, r, after, hlist, h⟩ := resolve_interrupted herror
  exact ⟨_, before, r, after, herror, hlist, h⟩

end Mediation.Registry
