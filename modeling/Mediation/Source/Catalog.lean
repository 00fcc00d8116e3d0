import Mediation.Source.Basic

/-! # Catalogs

A catalog is a source in memory. It lists descriptors by identity and version,
where spellings of one version share a descriptor.
-/

namespace Mediation

structure Release where
  version : Version
  descriptor : Descriptor
  deriving Repr

/-- The releases of each identity in the order of their first entry, the identities that
fail with the reason, and the numbers of answers given. -/
structure Catalog where
  releases : Table Key (List Release)
  failures : Table Key Text
  retrievals : Nat
  listings : Nat
  deriving Repr

namespace Catalog

def empty : Catalog := ⟨.empty, .empty, 0, 0⟩

/-- The releases with the descriptor of a version replaced, or a new release at the end. -/
def putRelease (v : Version) (d : Descriptor) : List Release → List Release
  | [] => [⟨v, d⟩]
  | r :: rs => if r.version.same v then ⟨r.version, d⟩ :: rs else r :: putRelease v d rs

def releasesOf (s : Catalog) (k : Key) : List Release := (s.releases.get? k).getD []

/-- Lists a version; one that is listed keeps its spelling and gets the descriptor. -/
def add (s : Catalog) (k : Key) (v : Version) (d : Descriptor) : Catalog :=
  { s with releases := s.releases.put k (putRelease v d (s.releasesOf k)) }

def fail (s : Catalog) (k : Key) (reason : Text) : Catalog :=
  { s with failures := s.failures.put k reason }

def versionsOf (s : Catalog) (k : Key) : List Version := (s.releasesOf k).map (·.version)

def check (s : Catalog) (c : Coordinate) : SourceAnswer Unit :=
  match s.failures.get? c.key with
  | some reason => .error (.retrieval c reason)
  | none => .ok ()

def descriptor (s : Catalog) (a : Artifact) : SourceAnswer Descriptor := do
  s.check a.coordinate
  match a.selected.bind fun v => (s.releasesOf a.key).find? (·.version.same v) with
  | some r => return r.descriptor
  | none => throw (.notFound a.coordinate a.effective)

def listing (s : Catalog) (c : Coordinate) : SourceAnswer (List Version) := do
  s.check c
  return s.versionsOf c.key

/-- What the version of an artifact stands for: the highest version, the highest one that is
no snapshot, or itself. -/
def concreteVersion (s : Catalog) (a : Artifact) : SourceAnswer Version := do
  s.check a.coordinate
  match a.effective with
  | none => throw (.transform (.missingVersion a.coordinate))
  | some v =>
    let known := s.versionsOf a.key
    let highest (kind : Transform) (vs : List Version) : SourceAnswer Version :=
      match Version.lastMax? vs with
      | some w => .ok w
      | none => .error (.transform (.versionNotFound a.coordinate kind))
    if Transform.release.appliesTo v then highest .release (known.filter (!·.isSnapshot))
    else if Transform.latest.appliesTo v then highest .latest known
    else return v

def source (latency : Nat) : Source Catalog where
  latency := latency
  retrieve a s := (s.descriptor a, { s with retrievals := s.retrievals + 1 })
  versions c s := (s.listing c, { s with listings := s.listings + 1 })
  concretize a s := (s.concreteVersion a, { s with listings := s.listings + 1 })

end Catalog

end Mediation
