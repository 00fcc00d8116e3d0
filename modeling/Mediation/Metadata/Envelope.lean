import Mediation.Json.Basic
import Mediation.Metadata.Key
import Mediation.Time.Moment
import Mediation.Version.Rank

/-! # Metadata envelopes

An envelope records the versions of an artifact, or the last build of a snapshot
version. Two envelopes merge into one: versions are united, and the newer one
decides on latest, release and snapshot.
-/

namespace Mediation

/-- The last deployment of a snapshot version. -/
structure SnapshotRecord where
  timestamp : Option Text
  buildNumber : UInt32
  localCopy : Bool
  deriving DecidableEq, Repr

structure Versioning where
  latest : Option Text
  release : Option Text
  versions : List Text
  lastUpdated : Option Text
  snapshot : Option SnapshotRecord
  deriving DecidableEq, Repr

structure Envelope where
  group : Text
  artifact : Text
  version : Option Text
  versioning : Versioning
  deriving DecidableEq, Repr

namespace Versioning

def empty : Versioning := ⟨none, none, [], none, none⟩

def touch (v : Versioning) (now : Moment) : Versioning :=
  { v with lastUpdated := some now.updateStamp }

/-- The list of versions with those of another list that it lacks, first seen first. -/
def unite (mine theirs : List Text) : List Text :=
  theirs.foldl (fun vs v => if vs.contains v then vs else vs ++ [v]) mine

/-- A moment of an update, where an empty text counts as none. -/
def stamp? (t : Option Text) : Option Text := t.filter (!·.isEmpty)

/-- Whether what comes in is not older; no stamp counts as current. -/
def isCurrent (current incoming : Option Text) : Bool :=
  match current, incoming with
  | some c, some i => Ord.compare i c != .lt
  | _, _ => true

def merge (mine theirs : Versioning) : Versioning :=
  let versions := unite mine.versions theirs.versions
  let current := stamp? mine.lastUpdated
  let incoming := (stamp? theirs.lastUpdated).or current
  if isCurrent current incoming then
    ⟨theirs.latest.or mine.latest, theirs.release.or mine.release, versions, incoming,
      theirs.snapshot.or mine.snapshot⟩
  else { mine with versions := versions }

end Versioning

namespace Envelope

def forKey (k : MetadataKey) : Envelope := ⟨k.group, k.artifact, k.version, .empty⟩

def key (e : Envelope) : MetadataKey := ⟨e.group, e.artifact, e.version⟩

def isEmpty (e : Envelope) : Bool := e.versioning == .empty

def versions (e : Envelope) : List Version := e.versioning.versions.map .mk

/-- The highest recorded version, the last one of several equal ones. -/
def highest? (e : Envelope) : Option Version := Version.lastMax? e.versions

def orIfEmpty (t other : Text) : Text := if t.isEmpty then other else t

def merge (mine theirs : Envelope) : Envelope :=
  ⟨orIfEmpty mine.group theirs.group, orIfEmpty mine.artifact theirs.artifact,
    mine.version.or theirs.version, mine.versioning.merge theirs.versioning⟩

def changesWith (mine theirs : Envelope) : Bool := mine.merge theirs != mine

end Envelope

end Mediation
