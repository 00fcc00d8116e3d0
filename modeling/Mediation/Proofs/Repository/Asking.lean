import Mediation.Repository.Registry

/-! # Asking repositories

A question to a repository is answered from what is at hand, or the store is asked. Only an answer
of a remote repository is kept, with the moment of the question. What all questions preserve is
preserved by reading a key from a list of repositories, whatever the store.
-/

namespace Mediation.Registry

variable {σ : Type} {key : MetadataKey} {r : Repository} {rs : List Repository} {now : Moment}

/-- What is kept for a remote repository is stale unless it is at hand. -/
theorem requiresUpdate_of_atHand {g : Registry σ} {a : CachedAnswer} (hr : r.isLocal = false)
    (hand : g.atHand? key r now = none) (ha : g.cache.lookup? r.id key = some a) :
    r.policy.requiresUpdate a.checkedAt now = true := by
  simpa [atHand?, hr, ha] using hand

variable [Store σ]

/-- What a question to a repository gives, and the registry that it leaves. -/
inductive Asks (key : MetadataKey) (r : Repository) (now : Moment) (g : Registry σ) :
    Answer × Registry σ → Prop
  | reuses {a : CachedAnswer} (hand : g.atHand? key r now = some a) :
      Asks key r now g (.ok a.envelope, { g with cache := g.cache.hit })
  | fails {err : RetrievalError} {s : σ} (hand : g.atHand? key r now = none)
      (fetched : Store.fetch key r g.store = (.error err, s)) :
      Asks key r now g (.error err, ⟨s, g.cache.miss⟩)
  | reads {found : Option Envelope} {s : σ} (hand : g.atHand? key r now = none)
      (fetched : Store.fetch key r g.store = (.ok found, s)) (isLocal : r.isLocal = true) :
      Asks key r now g (.ok found, ⟨s, g.cache.miss⟩)
  | refreshes {found : Option Envelope} {s : σ} (hand : g.atHand? key r now = none)
      (fetched : Store.fetch key r g.store = (.ok found, s)) (isRemote : r.isLocal = false) :
      Asks key r now g (.ok found, ⟨s, g.cache.miss.record r.id key ⟨found, now⟩⟩)

theorem asks_ask (g : Registry σ) (key : MetadataKey) (r : Repository) (now : Moment) :
    Asks key r now g (g.ask key r now) := by
  cases hand : g.atHand? key r now with
  | some a => simpa only [ask, hand] using .reuses hand
  | none =>
    rcases fetched : Store.fetch key r g.store with ⟨_ | found, s⟩
    · simpa only [ask, hand, fetch, fetched] using .fails hand fetched
    · cases hlocal : r.isLocal with
      | true => simpa only [ask, hand, fetch, fetched, hlocal] using .reads hand fetched hlocal
      | false => simpa only [ask, hand, fetch, fetched, hlocal] using .refreshes hand fetched hlocal

variable {P : Registry σ → Prop}

theorem collect_preserves (hask : ∀ g, ∀ r ∈ rs, P g → P (g.ask key r now).2) {g : Registry σ}
    (hg : P g) (e : Envelope) : P (g.collect key now e rs).2 := by
  induction rs generalizing g e with
  | nil => exact hg
  | cons r rs ih =>
    have hnext := hask g r List.mem_cons_self hg
    rw [collect]
    generalize g.ask key r now = asked at hnext
    obtain ⟨_ | found, g'⟩ := asked
    · exact hnext
    · exact ih (fun g r hr => hask g r (List.mem_cons_of_mem _ hr)) hnext _

theorem mem_of_mem_inOrder (h : r ∈ inOrder rs) : r ∈ rs := by
  simp only [inOrder, List.mem_append, List.mem_filter] at h
  exact h.elim And.left And.left

theorem resolve_preserves (hask : ∀ g, ∀ r ∈ rs, P g → P (g.ask key r now).2)
    (hmerged : ∀ g e, P g → P { g with cache := g.cache.putMerged key e }) {g : Registry σ}
    (hg : P g) : P (g.resolve key rs now).2 := by
  have hcollect : P (g.collect key now (.forKey key)
      ((inOrder rs).filter fun r => r.isLocal || g.isOnline)).2 :=
    collect_preserves
      (fun g r hr => hask g r (mem_of_mem_inOrder (List.mem_filter.mp hr).1)) hg _
  rw [resolve]
  generalize g.collect key now (.forKey key) _ = collected at hcollect
  obtain ⟨_ | e, g'⟩ := collected
  · exact hcollect
  · exact hmerged g' e hcollect

end Mediation.Registry
