import Mediation.Repository.Registry

/-! # Operations on repositories in memory

What can be done with a registry over repositories in memory, one operation after
the other: changes of what the repositories hold, changes of the cache, and reads.
-/

namespace Mediation

/-- Something to do with a registry over repositories in memory. -/
inductive Operation
  | put (repository : Text) (e : Envelope)
  | fail (repository : Text) (key : MetadataKey) (reason : Text)
  | setOnline (isOnline : Bool)
  | get (repository : Text) (key : MetadataKey)
  | record (repository : Text) (key : MetadataKey) (answer : CachedAnswer)
  | lookup (repository : Text) (key : MetadataKey)
  | merged (key : MetadataKey)
  | putMerged (key : MetadataKey) (e : Envelope)
  | invalidate (key : MetadataKey)
  | clear
  | resolve (key : MetadataKey) (rs : List Repository) (now : Moment)
  | resolveFresh (key : MetadataKey) (r : Repository) (now : Moment)
  deriving DecidableEq, Repr

inductive Outcome
  | done
  | online (isOnline : Bool)
  | envelope (e : Option Envelope)
  | cached (answer : Option CachedAnswer)
  | failed (e : RetrievalError)
  deriving DecidableEq, Repr

namespace Outcome

def ofAnswer : Answer → Outcome
  | .ok e => envelope e
  | .error e => failed e

def ofMerged : Except RetrievalError Envelope → Outcome
  | .ok e => envelope (some e)
  | .error e => failed e

end Outcome

namespace Registry

abbrev InMemory := Registry MemoryStore

def alterStore (g : InMemory) (f : MemoryStore → MemoryStore) : InMemory :=
  { g with store := f g.store }

def alterCache (g : InMemory) (f : Cache → Cache) : InMemory := { g with cache := f g.cache }

def perform (g : InMemory) : Operation → Outcome × InMemory
  | .put repository e => (.done, g.alterStore (·.put repository e))
  | .fail repository key reason => (.done, g.alterStore (·.fail repository key reason))
  | .setOnline isOnline => (.online isOnline, g.alterStore fun s => { s with isOnline })
  | .get repository key => (.envelope (g.store.get? repository key), g)
  | .record repository key answer => (.done, g.alterCache (·.record repository key answer))
  | .lookup repository key => (.cached (g.cache.lookup? repository key), g)
  | .merged key => (.envelope (g.cache.merged.get? key), g)
  | .putMerged key e => (.envelope (some e), g.alterCache (·.putMerged key e))
  | .invalidate key => (.done, g.alterCache (·.invalidate key))
  | .clear => (.done, g.alterCache (·.clear))
  | .resolve key rs now => ((g.resolve key rs now).map Outcome.ofMerged id)
  | .resolveFresh key r now => ((g.resolveFresh key r now).map Outcome.ofAnswer id)

def performAll (g : InMemory) : List Operation → List Outcome × InMemory
  | [] => ([], g)
  | op :: ops =>
    let (outcome, g) := g.perform op
    let (outcomes, g) := g.performAll ops
    (outcome :: outcomes, g)

end Registry

end Mediation
