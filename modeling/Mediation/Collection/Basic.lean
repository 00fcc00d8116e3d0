import Mediation.Collection.Event
import Mediation.Failure
import Mediation.Graph.Basic
import Mediation.Policy

/-! # Collections

A collection is a resolution under way: the graph so far, the nodes that take
part in conflicts, the failures, the nodes to expand once more, and the events.
-/

namespace Mediation

/-- What stays the same during a resolution. -/
structure Rules where
  arbiter : Arbiter
  strict : Bool
  filter : Option ScopeFilter
  pins : Management

/-- A resolution under way. The contenders are in the order of discovery. -/
structure Collection where
  graph : Graph
  contenders : List NodeId
  problems : List Problem
  requeue : List NodeId
  events : Array Event
  deriving Repr

/-- A change of a collection that may abort the resolution. -/
abbrev Step := EStateM ResolveError Collection

def Step.ofExcept {α : Type} : Except ResolveError α → Step α
  | .ok a => pure a
  | .error e => throw e

namespace Collection

def start (root : Coordinate) (v : Version) (pins : Management) : Collection :=
  ⟨.start root v pins, [], [], [], #[]⟩

def node (s : Collection) (id : NodeId) : Node := s.graph.node id

def update (s : Collection) (id : NodeId) (f : Node → Node) : Collection :=
  { s with graph := s.graph.update id f }

def emit (s : Collection) (e : Event) : Collection := { s with events := s.events.push e }

@[simp] theorem graph_update (s : Collection) (id : NodeId) (f : Node → Node) :
    (s.update id f).graph = s.graph.update id f := rfl

@[simp] theorem graph_emit (s : Collection) (e : Event) : (s.emit e).graph = s.graph := rfl

def report (s : Collection) (id : NodeId) (e : NodeError) : Collection :=
  { s with problems := s.problems ++ [(⟨(s.node id).artifact, e⟩ : Problem)] }

/-- The contenders of an identity in the order of discovery. -/
def contendersOf (s : Collection) (k : Key) : List NodeId :=
  s.contenders.filter fun id => (s.node id).key == k

/-- The contender of an identity that is part of the result. -/
def winner? (s : Collection) (k : Key) : Option NodeId :=
  (s.contendersOf k).find? s.graph.isIncluded

/-- Leaves nodes out of later conflicts. -/
def forget (s : Collection) (ids : List NodeId) : Collection :=
  { s with contenders := s.contenders.filter (!ids.contains ·) }

/-- Notes that a node has to be expanded once more. -/
def enqueue (s : Collection) (id : NodeId) : Collection :=
  if s.requeue.contains id then s else { s with requeue := s.requeue ++ [id] }

def accept (s : Collection) (id : NodeId) : Collection :=
  let s := s.update id fun n => { n with state := .included, kept := none }
  s.emit (.included (s.node id).artifact)

def select (s : Collection) (id : NodeId) (v : Version) : Collection :=
  s.update id fun n => { n with artifact := n.artifact.select v }

def constrain (s : Collection) (id : NodeId) (c : Constraint) : Collection :=
  s.update id fun n => { n with constraint := c }

end Collection

end Mediation
