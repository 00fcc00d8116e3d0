import Mediation.Repository.Registry
import Mediation.Transform.Basic

/-! # Deployments of snapshots

The build after the last one that a remote repository records, with the metadata
to publish together with it.
-/

namespace Mediation

/-- Why no build was planned. An overflow is not an error that planning reports, planning ends
where it happens. -/
inductive DeploymentFault
  | transform (e : TransformError)
  | overflow
  deriving DecidableEq, Repr

structure Deployment where
  buildNumber : UInt32
  timestamp : Text
  version : Version
  envelope : Envelope
  deriving DecidableEq, Repr

namespace Deployment

/-- The number of the last build that an envelope records; none counts as zero. -/
def lastNumber (e : Option Envelope) : UInt32 :=
  (e.bind (·.versioning.snapshot)).elim 0 (·.buildNumber)

def recordBuild (e : Envelope) (timestamp : Text) (number : UInt32) (now : Moment) : Envelope :=
  { e with
    versioning :=
      Versioning.touch { e.versioning with snapshot := some ⟨some timestamp, number, false⟩ } now }

/-- The number behind a number. Counting on from the greatest number of 32 bits overflows. -/
def next? (number : UInt32) : Option UInt32 :=
  if number.toNat + 1 < Text.word32 then some (number + 1) else none

def ofNumber (base : Version) (key : MetadataKey) (found : Option Envelope) (now : Moment)
    (number : UInt32) : Deployment :=
  let timestamp := now.buildStamp
  { buildNumber := number
    timestamp := timestamp
    version := Transform.buildVersion base timestamp number
    envelope := recordBuild (found.getD (.forKey key)) timestamp number now }

/-- The build of an open snapshot at a moment, after what its metadata record. -/
def plan (base : Version) (key : MetadataKey) (found : Option Envelope) (now : Moment) :
    Except DeploymentFault Deployment :=
  match next? (lastNumber found) with
  | some number => .ok (ofNumber base key found now number)
  | none => .error .overflow

variable {σ : Type} [Store σ]

/-- Plans the next build of an artifact in a repository. Its metadata are fetched, whatever
is at hand, and the registry notes the answer as one of the moment `asked`. -/
def prepare (a : Artifact) (r : Repository) (asked now : Moment) (g : Registry σ) :
    Except DeploymentFault Deployment × Registry σ :=
  match a.effective.map Version.base with
  | none => (.error (.transform (.missingVersion a.coordinate)), g)
  | some base =>
    if !base.isOpenSnapshot then (.error (.transform (.notSnapshot a.coordinate base)), g)
    else
      let key := MetadataKey.ofVersion a.key base.text
      match g.resolveFresh key r asked with
      | (.error err, g) => (.error (.transform (.retrieval err)), g)
      | (.ok found, g) => (plan base key found now, g)

end Deployment

end Mediation
