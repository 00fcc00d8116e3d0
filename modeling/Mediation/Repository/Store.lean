import Mediation.Metadata.Envelope
import Mediation.Repository.Basic
import Mediation.Table

/-! # Stores of metadata

A store answers for all repositories what each of them holds. Not to hold an
envelope is an answer and no error.
-/

namespace Mediation

/-- Why a repository gave no answer: it could not be read, or what it holds is no envelope. -/
inductive RetrievalError
  | unavailable (key : MetadataKey) (repository : Text) (reason : Text)
  | malformed (key : MetadataKey) (repository : Text)
  deriving DecidableEq, Repr

def RetrievalError.message : RetrievalError → Text
  | unavailable key repository reason =>
    "failed to retrieve metadata " ++ key.text ++ " from " ++ repository ++ ": " ++ reason
  | malformed key repository => "malformed metadata " ++ key.text ++ " in " ++ repository

/-- What a repository answers: an envelope, the absence of one, or an error. -/
abbrev Answer := Except RetrievalError (Option Envelope)

/-- States of a store that can be asked for the metadata of any repository. -/
class Store (σ : Type) where
  /-- Whether remote repositories may be asked. -/
  isOnline : σ → Bool
  /-- What a repository answers for a key, and the store after that. -/
  fetch : MetadataKey → Repository → σ → Answer × σ

abbrev Place := Text × MetadataKey

/-- Repositories held in memory, by their ids. -/
structure MemoryStore where
  envelopes : Table Place Envelope
  failures : Table Place Text
  isOnline : Bool
  fetches : Nat
  deriving Repr

namespace MemoryStore

def empty : MemoryStore := ⟨.empty, .empty, true, 0⟩

/-- Keeps an envelope under its own key, in place of an earlier one. -/
def put (s : MemoryStore) (repository : Text) (e : Envelope) : MemoryStore :=
  { s with envelopes := s.envelopes.put (repository, e.key) e }

def fail (s : MemoryStore) (repository : Text) (key : MetadataKey) (reason : Text) :
    MemoryStore :=
  { s with failures := s.failures.put (repository, key) reason }

def get? (s : MemoryStore) (repository : Text) (key : MetadataKey) : Option Envelope :=
  s.envelopes.get? (repository, key)

def answer (s : MemoryStore) (key : MetadataKey) (r : Repository) : Answer :=
  match s.failures.get? (r.id, key) with
  | some reason => .error (.unavailable key r.id reason)
  | none => .ok (s.get? r.id key)

instance : Store MemoryStore where
  isOnline := MemoryStore.isOnline
  fetch key r s := (s.answer key r, { s with fetches := s.fetches + 1 })

end MemoryStore

end Mediation
