import Mediation.Digraph
import Mediation.Graph.Basic

/-! # Build order

The included artifacts with every artifact behind the ones it depends on. What a
dependency depends on counts even where it lost a conflict or closed a cycle; then
it stands for the included artifact of its identity.
-/

namespace Mediation.Graph

def holder? (g : Graph) (included : List NodeId) (k : Key) : Option NodeId :=
  included.find? fun id => (g.node id).key == k

/-- The included nodes that a node depends on, in the order of their first declaration. -/
def dependencies (g : Graph) (included : List NodeId) (id : NodeId) : List NodeId :=
  let declared := (g.children id).filter fun c => (g.node c).state != .failed
  ((declared.filterMap fun c => g.holder? included (g.node c).key).filter (· != id)).eraseDups

/-- The included nodes and their dependencies, the last declared one first. -/
def dependencyGraph (g : Graph) : Digraph :=
  let included := g.included
  ⟨included.map fun id => (id, (g.dependencies included id).reverse)⟩

/-- The included nodes, each behind those it depends on. Nodes that depend on each other stand
together in the order of discovery. -/
def buildOrder (g : Graph) : List NodeId := g.dependencyGraph.components.flatten

end Mediation.Graph
