import Mediation.Repository.Store

/-! # The cache of metadata

The cache keeps the last answer of each remote repository together with the
moment it was given, and the envelope last merged for each key.
-/

namespace Mediation

/-- An answer of a repository and when it was given. -/
structure CachedAnswer where
  envelope : Option Envelope
  checkedAt : Moment
  deriving DecidableEq, Repr

/-- Answers by repository and key, merged envelopes by key, and how often an answer was
at hand or had to be fetched. -/
structure Cache where
  answers : Table Place CachedAnswer
  merged : Table MetadataKey Envelope
  hits : Nat
  misses : Nat
  deriving Repr

namespace Cache

def empty : Cache := ⟨.empty, .empty, 0, 0⟩

def lookup? (c : Cache) (repository : Text) (key : MetadataKey) : Option CachedAnswer :=
  c.answers.get? (repository, key)

def record (c : Cache) (repository : Text) (key : MetadataKey) (answer : CachedAnswer) : Cache :=
  { c with answers := c.answers.put (repository, key) answer }

def hit (c : Cache) : Cache := { c with hits := c.hits + 1 }

def miss (c : Cache) : Cache := { c with misses := c.misses + 1 }

def putMerged (c : Cache) (key : MetadataKey) (e : Envelope) : Cache :=
  { c with merged := c.merged.put key e }

/-- Forgets all about a key. -/
def invalidate (c : Cache) (key : MetadataKey) : Cache :=
  { c with answers := c.answers.keep (·.2 != key), merged := c.merged.erase key }

def clear (c : Cache) : Cache := { c with answers := .empty, merged := .empty }

variable (c : Cache) (id repository : Text) (key k : MetadataKey)

@[simp] theorem lookup?_hit : c.hit.lookup? id k = c.lookup? id k := rfl

@[simp] theorem lookup?_miss : c.miss.lookup? id k = c.lookup? id k := rfl

@[simp] theorem lookup?_putMerged (e : Envelope) :
    (c.putMerged key e).lookup? id k = c.lookup? id k := rfl

theorem lookup?_record (answer : CachedAnswer) : (c.record repository key answer).lookup? id k =
    if id = repository ∧ k = key then some answer else c.lookup? id k := by
  simp [lookup?, record, Table.get?_put]

theorem lookup?_invalidate :
    (c.invalidate key).lookup? id k = if k = key then none else c.lookup? id k := by
  simp [lookup?, invalidate, Table.get?_keep]

end Cache

end Mediation
