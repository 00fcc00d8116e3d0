import Mediation.Collection.Basic

/-! # Expansion

The descriptor of an included node becomes the children of that node. Optional
dependencies of dependencies and excluded ones are skipped; what is pinned further
up overrides the declaration; a scope that does not propagate or lies outside the
classpath leaves a dependency out.
-/

namespace Mediation

namespace Dependency

/-- Whether a dependency declared by a node does not take part at all. -/
def isSkippedBelow (d : Dependency) (above : Node) : Bool :=
  (1 ≤ above.depth && d.optional) || above.exclusions.any (·.excludes d.coordinate.key)

def pinned (d : Dependency) (p : Pin) : Dependency :=
  { d with constraint := p.version.getD d.constraint, scope := p.scope.getD d.scope }

def declaredArtifact (d : Dependency) (trail : Trail) : Artifact :=
  { Artifact.pending d.coordinate d.scope (trail ++ [d.coordinate]) with
    declared := d.constraint.recommended }

def scopeBelow (d : Dependency) (above : Node) : Option Scope :=
  if above.depth = 0 then some d.scope else above.artifact.scope.inherit d.scope

/-- The child that a dependency becomes below a node, if it is on the classpath. -/
def childBelow (d : Dependency) (above : Node) (filter : Option ScopeFilter) : Option Child := do
  let scope ← d.scopeBelow above
  guard (filter.all (·.includes scope))
  return ⟨d.coordinate, d.constraint, d.scope, scope, d.optional, above.exclusions ++ d.exclusions⟩

end Dependency

namespace Collection

/-- The pin for what a node declares: that of the request, or of the nearest node on the way
to the root that pins the identity. -/
def pinBelow (rules : Rules) (s : Collection) (parent : NodeId) (k : Key) : Option Pin :=
  (rules.pins.get? k).or <|
    ((parent :: s.graph.ancestors parent).takeWhile (· != Graph.root)).findSome? fun id =>
      (s.node id).management.get? k

/-- Creates a child; one that closes a cycle takes part in nothing further. -/
def adopt (s : Collection) (parent : NodeId) (c : Child) : Option NodeId × Collection :=
  let id := s.graph.size
  let s := { s with graph := s.graph.attach parent c }
  let artifact := (s.node id).artifact
  let s := s.emit (.considered artifact)
  if (s.node id).state = .omittedForCycle then (none, s.emit (.omittedForCycle artifact))
  else (some id, { s with contenders := s.contenders ++ [id] })

/-- Creates the child for a dependency unless it is left out, and says which node joins the
next level. -/
def attach (rules : Rules) (s : Collection) (parent : NodeId) (d : Dependency) :
    Option NodeId × Collection :=
  let above := s.node parent
  if d.isSkippedBelow above then (none, s)
  else
    let pin := if above.depth = 0 then none else s.pinBelow rules parent d.coordinate.key
    let s := pin.elim s fun p => s.emit (.managed (d.declaredArtifact above.artifact.trail) p)
    match (pin.elim d d.pinned).childBelow above rules.filter with
    | none => (none, s)
    | some c => s.adopt parent c

def attachAll (rules : Rules) (s : Collection) (parent : NodeId) :
    List Dependency → List NodeId × Collection
  | [] => ([], s)
  | d :: ds =>
    let (first, s) := s.attach rules parent d
    let (others, s) := s.attachAll rules parent ds
    (first.toList ++ others, s)

/-- Expands a node by its descriptor, and gives the nodes of the next level. -/
def expand (rules : Rules) (s : Collection) (id : NodeId) (d : Descriptor) :
    List NodeId × Collection :=
  let s := s.update id fun n =>
    { n with
      expanded := true
      artifact := { n.artifact with resolved := true }
      management := d.management }
  let s := s.emit (.expanding (s.node id).artifact)
  let (created, s) := s.attachAll rules id d.dependencies
  (created, s.emit (.expanded (s.node id).artifact))

end Collection

end Mediation
