import Mediation.Repository.Registry
import Mediation.Transform.Basic

/-! # Pipelines of transforms

A pipeline applies transforms one after the other, each to the version that the
one before it left, and asks a registry for the metadata they need.
-/

namespace Mediation

abbrev Pipeline := List Transform

namespace Pipeline

variable {σ : Type} [Store σ]

def apply (c : Coordinate) (rs : List Repository) (now : Moment) (v : Version)
    (g : Registry σ) : Pipeline → Except TransformError Version × Registry σ
  | [] => (.ok v, g)
  | t :: ts =>
    if t.appliesTo v then
      match g.resolve (t.key c v) rs now with
      | (.error err, g) => (.error (.retrieval err), g)
      | (.ok e, g) =>
        match t.construct c v e with
        | .error err => (.error err, g)
        | .ok w => apply c rs now w g ts
    else apply c rs now v g ts

def run (p : Pipeline) (a : Artifact) (rs : List Repository) (now : Moment) (g : Registry σ) :
    Except TransformError Version × Registry σ :=
  match a.effective with
  | none => (.error (.missingVersion a.coordinate), g)
  | some v => apply a.coordinate rs now v g p

end Pipeline

end Mediation
