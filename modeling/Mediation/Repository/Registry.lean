import Mediation.Repository.Cache

/-! # Registries

A registry reads the metadata of a key from several repositories, the local ones
first, and merges them. The answers of remote repositories are reused until their
update policy calls them stale.
-/

namespace Mediation

structure Registry (σ : Type) where
  store : σ
  cache : Cache

namespace Registry

variable {σ : Type}

def ofStore (s : σ) : Registry σ := ⟨s, .empty⟩

/-- The answer at hand for a remote repository, unless it is stale. -/
def atHand? (g : Registry σ) (key : MetadataKey) (r : Repository) (now : Moment) :
    Option CachedAnswer :=
  if r.isLocal then none
  else (g.cache.lookup? r.id key).filter fun a => !r.policy.requiresUpdate a.checkedAt now

/-- Local repositories before remote ones, each in the order of the list. -/
def inOrder (rs : List Repository) : List Repository :=
  rs.filter (·.isLocal) ++ rs.filter (!·.isLocal)

variable [Store σ]

def isOnline (g : Registry σ) : Bool := Store.isOnline g.store

/-- Asks the store, and keeps the answer if it is one of a remote repository. -/
def fetch (g : Registry σ) (key : MetadataKey) (r : Repository) (now : Moment) :
    Answer × Registry σ :=
  match Store.fetch key r g.store with
  | (.error e, s) => (.error e, ⟨s, g.cache⟩)
  | (.ok found, s) =>
    (.ok found, ⟨s, if r.isLocal then g.cache else g.cache.record r.id key ⟨found, now⟩⟩)

/-- What a repository answers for a key, from the cache as long as that is not stale. -/
def ask (g : Registry σ) (key : MetadataKey) (r : Repository) (now : Moment) :
    Answer × Registry σ :=
  match g.atHand? key r now with
  | some a => (.ok a.envelope, { g with cache := g.cache.hit })
  | none => fetch { g with cache := g.cache.miss } key r now

/-- Merges into an envelope what the repositories of a list answer, up to the first error. -/
def collect (g : Registry σ) (key : MetadataKey) (now : Moment) (e : Envelope) :
    List Repository → Except RetrievalError Envelope × Registry σ
  | [] => (.ok e, g)
  | r :: rs =>
    match g.ask key r now with
    | (.error err, g) => (.error err, g)
    | (.ok found, g) => g.collect key now (found.elim e e.merge) rs

/-- The merged envelope of a key. Remote repositories are left out while offline, and an
error leaves the merged envelopes as they are. -/
def resolve (g : Registry σ) (key : MetadataKey) (rs : List Repository) (now : Moment) :
    Except RetrievalError Envelope × Registry σ :=
  let reachable := (inOrder rs).filter fun r => r.isLocal || g.isOnline
  match g.collect key now (.forKey key) reachable with
  | (.error err, g) => (.error err, g)
  | (.ok e, g) => (.ok e, { g with cache := g.cache.putMerged key e })

/-- The answer of one repository, fetched whether or not one is at hand. -/
def resolveFresh (g : Registry σ) (key : MetadataKey) (r : Repository) (now : Moment) :
    Answer × Registry σ :=
  match Store.fetch key r g.store with
  | (.error err, s) => (.error err, { g with store := s })
  | (.ok found, s) => (.ok found, ⟨s, g.cache.record r.id key ⟨found, now⟩⟩)

end Registry

end Mediation
