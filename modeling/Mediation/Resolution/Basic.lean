import Mediation.Collection.Run
import Mediation.Resolution.BuildOrder

/-! # Resolutions

The outcome of a run: the included artifacts, the whole graph, the failures that
did not abort it, and counts over what is visible.
-/

namespace Mediation

structure Resolution where
  graph : Graph
  problems : List Problem
  fetches : Nat
  deriving Repr

/-- Counts over the visible nodes of a resolution; the root counts as none of them. -/
structure Stats where
  nodes : Nat
  included : Nat
  omittedForConflict : Nat
  omittedForCycle : Nat
  failed : Nat
  maxDepth : Nat
  fetches : Nat
  deriving DecidableEq, Repr

def Stats.summary (s : Stats) : Text :=
  "Collected: " ++ Text.ofNat s.included ++ " included, " ++ Text.ofNat s.omittedForConflict ++
    " omitted (conflict), " ++ Text.ofNat s.omittedForCycle ++ " omitted (cycle), " ++
    Text.ofNat s.failed ++ " failed, depth=" ++ Text.ofNat s.maxDepth ++ ", nodes=" ++
    Text.ofNat s.nodes ++ ", fetches=" ++ Text.ofNat s.fetches

namespace Resolution

def ofRun {σ : Type} (r : Run σ) : Resolution :=
  ⟨r.collection.graph, r.collection.problems, r.fetches⟩

def included (r : Resolution) : List Artifact :=
  r.graph.included.map fun id => (r.graph.node id).artifact

def find? (r : Resolution) (k : Key) : Option Artifact :=
  r.included.find? (·.coordinate.hasKey k)

def visibleIn (r : Resolution) (s : NodeState) : List NodeId :=
  r.graph.visible.filter fun id => (r.graph.node id).state == s

def cycles (r : Resolution) : List NodeId := r.visibleIn .omittedForCycle

def buildOrder (r : Resolution) : List Artifact :=
  r.graph.buildOrder.map fun id => (r.graph.node id).artifact

def stats (r : Resolution) : Stats where
  nodes := r.graph.size
  included := r.graph.included.length
  omittedForConflict := (r.visibleIn .omittedForConflict).length
  omittedForCycle := (r.visibleIn .omittedForCycle).length
  failed := (r.visibleIn .failed).length
  maxDepth := (r.graph.included.map fun id => (r.graph.node id).depth).foldl max 0
  fetches := r.fetches

end Resolution

end Mediation
