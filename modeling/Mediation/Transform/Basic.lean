import Mediation.Artifact
import Mediation.Repository.Store
import Mediation.Version.Build

/-! # Transforms of versions

A transform makes versions of one kind concrete with the help of metadata: the
release named `RELEASE`, the newest version named `LATEST`, or the last build of
an open snapshot.
-/

namespace Mediation

/-- The kinds of versions that metadata make concrete. -/
inductive Transform
  | release
  | latest
  | snapshot
  deriving DecidableEq, Repr, Inhabited

/-- Why a version could not be made concrete, or a build not be planned. -/
inductive TransformError
  | versionNotFound (c : Coordinate) (kind : Transform)
  | missingVersion (c : Coordinate)
  | notSnapshot (c : Coordinate) (v : Version)
  | retrieval (e : RetrievalError)
  deriving DecidableEq, Repr

namespace Transform

/-- All transforms in the order in which they are applied: what `LATEST` stands for may be a
snapshot. -/
def all : List Transform := [release, latest, snapshot]

def name : Transform → Text
  | release => Version.releaseName
  | latest => Version.latestName
  | snapshot => Version.snapshotMark

def ofName? (t : Text) : Option Transform := all.find? (·.name == t)

def appliesTo (t : Transform) (v : Version) : Bool :=
  match t with
  | release => v.text == Version.releaseName
  | latest => v.text == Version.latestName
  | snapshot => v.isOpenSnapshot

def key (t : Transform) (c : Coordinate) (v : Version) : MetadataKey :=
  match t with
  | release => .ofKey c.key
  | latest => .ofKey c.key
  | snapshot => .ofVersion c.key v.text

/-- The version of a build of an open snapshot; every other version stays. -/
def buildVersion (v : Version) (timestamp : Text) (number : UInt32) : Version :=
  if v.isOpenSnapshot then ⟨v.openStem ++ timestamp ++ '-' :: Text.ofNat number.toNat⟩ else v

/-- The last build of a snapshot that was deployed, and not only installed locally. -/
def lastBuild (v : Version) (r : SnapshotRecord) : Version :=
  match r.timestamp with
  | some timestamp =>
    if r.localCopy || r.buildNumber == 0 then v else buildVersion v timestamp r.buildNumber
  | none => v

def recorded? (t : Option Text) : Option Version := (t.filter (!·.isEmpty)).map .mk

def construct (t : Transform) (c : Coordinate) (v : Version) (e : Envelope) :
    Except TransformError Version :=
  let found := match t with
    | release => recorded? e.versioning.release
    | latest => (recorded? e.versioning.latest).or e.highest?
    | snapshot => some (e.versioning.snapshot.elim v (lastBuild v))
  match found with
  | some w => .ok w
  | none => .error (.versionNotFound c t)

end Transform

def TransformError.message : TransformError → Text
  | versionNotFound c kind =>
    "unable to determine the " ++ kind.name ++ " version of " ++ c.text
  | missingVersion c => c.text ++ " has no version to transform"
  | notSnapshot c v => c.text ++ ':' :: v.text ++ " is not a snapshot version"
  | retrieval e => e.message

end Mediation
