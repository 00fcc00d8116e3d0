import Mediation.Dependency

/-! # Dependency graphs

A graph is an arena of nodes. Every node but the root was created below a parent
that already existed, and none is ever removed: losing a conflict or failing
changes the state of a node only.
-/

namespace Mediation

/-- The place of a node in its graph; ids grow in the order of discovery. -/
abbrev NodeId := Nat

/-- Where a node stands in a resolution. -/
inductive NodeState
  | pending
  | included
  | omittedForCycle
  | omittedForConflict
  | failed
  deriving DecidableEq, Repr, Inhabited

namespace NodeState

def name : NodeState → Text
  | pending => "pending"
  | included => "included"
  | omittedForCycle => "omitted for cycle"
  | omittedForConflict => "omitted for conflict"
  | failed => "failed"

/-- Whether a node was left out for a cycle or for a conflict. -/
def isOmitted (s : NodeState) : Bool := s == omittedForCycle || s == omittedForConflict

end NodeState

/-- One attempt to include an artifact. Constraint and scope may be narrowed and widened; those
that the node was attached with are kept beside them. -/
structure Node where
  id : NodeId
  artifact : Artifact
  depth : Nat
  parent : Option NodeId
  children : List NodeId
  state : NodeState
  constraint : Constraint
  declaredConstraint : Constraint
  declaredScope : Scope
  exclusions : List Exclusion
  management : Management
  expanded : Bool
  kept : Option NodeId
  deriving Repr

namespace Node

/-- What stands for a node outside the arena: a failed attempt at nothing. -/
instance : Inhabited Node :=
  ⟨0, default, 0, none, [], .failed, ⟨none, []⟩, ⟨none, []⟩, .compile, [], .empty, false, none⟩

def key (n : Node) : Key := n.artifact.key

def version (n : Node) : Option Version := n.artifact.selected

def isIncluded (n : Node) : Bool := n.state == .included

end Node

/-- A dependency about to be attached below a node. -/
structure Child where
  coordinate : Coordinate
  constraint : Constraint
  declaredScope : Scope
  scope : Scope
  optional : Bool
  exclusions : List Exclusion
  deriving Repr

/-- An arena of nodes whose first one is the root. -/
structure Graph where
  nodes : Array Node
  deriving Repr

namespace Graph

def root : NodeId := 0

def start (c : Coordinate) (v : Version) (management : Management) : Graph :=
  ⟨#[⟨root, .root c v, 0, none, [], .included, .exact v, .exact v, .compile, [], management,
    false, none⟩]⟩

/-- The number of nodes ever created. -/
def size (g : Graph) : Nat := g.nodes.size

def get? (g : Graph) (id : NodeId) : Option Node := g.nodes[id]?

def node (g : Graph) (id : NodeId) : Node := (g.get? id).getD default

def update (g : Graph) (id : NodeId) (f : Node → Node) : Graph := ⟨g.nodes.modify id f⟩

@[simp] theorem size_update (g : Graph) (id : NodeId) (f : Node → Node) :
    (g.update id f).size = g.size := by
  simp [update, size]

theorem get?_update (g : Graph) (id other : NodeId) (f : Node → Node) :
    (g.update id f).get? other = if id = other then (g.get? other).map f else g.get? other :=
  Array.getElem?_modify

theorem node_update_self {g : Graph} {id : NodeId} (h : id < g.size) (f : Node → Node) :
    (g.update id f).node id = f (g.node id) := by
  have : g.get? id = some g.nodes[id] := Array.getElem?_eq_getElem h
  simp [node, get?_update, this]

theorem node_update_of_ne (g : Graph) {id other : NodeId} (h : id ≠ other) (f : Node → Node) :
    (g.update id f).node other = g.node other := by
  simp [node, get?_update, h]

def isIncluded (g : Graph) (id : NodeId) : Bool := (g.node id).isIncluded

def children (g : Graph) (id : NodeId) : List NodeId := (g.get? id).elim [] Node.children

def parent? (g : Graph) (id : NodeId) : Option NodeId := (g.get? id).bind Node.parent

def trail (g : Graph) (id : NodeId) : Trail := (g.get? id).elim [] (·.artifact.trail)

def ancestorsUpTo (g : Graph) : Nat → NodeId → List NodeId
  | 0, _ => []
  | n + 1, id =>
    match g.parent? id with
    | none => []
    | some p => p :: g.ancestorsUpTo n p

/-- The ancestors of a node, nearest first; no chain of parents is longer than the arena. -/
def ancestors (g : Graph) (id : NodeId) : List NodeId := g.ancestorsUpTo g.size id

/-- The nodes at most so many levels below a node, depth first. -/
def descendantsUpTo (g : Graph) : Nat → NodeId → List NodeId
  | 0, _ => []
  | n + 1, id => (g.children id).flatMap fun child => child :: g.descendantsUpTo n child

/-- The nodes below a node, depth first; no branch is longer than the arena. -/
def descendants (g : Graph) (id : NodeId) : List NodeId := g.descendantsUpTo g.size id

/-- The nodes shown below a level of shown nodes, breadth first, for so many levels. -/
def shownBelow (g : Graph) : Nat → List NodeId → List NodeId
  | 0, _ => []
  | _, [] => []
  | n + 1, level =>
    let next := level.flatMap g.children
    next ++ g.shownBelow n (next.filter g.isIncluded)

/-- The nodes of the resolved tree, breadth first: the root, and every child of a shown
node that is included. -/
def visible (g : Graph) : List NodeId := root :: g.shownBelow g.size [root]

def included (g : Graph) : List NodeId :=
  g.visible.filter fun id => id != root && g.isIncluded id

/-- The node for a dependency below a parent. Its trail extends the parent's, and it closes
a cycle if its coordinate is on that trail already. -/
def childNode (g : Graph) (parent : NodeId) (c : Child) : Node :=
  let above := g.node parent
  let trail := above.artifact.trail
  { id := g.size
    artifact :=
      { Artifact.pending c.coordinate c.scope (trail ++ [c.coordinate]) with
        optional := c.optional
        declared := c.constraint.recommended }
    depth := above.depth + 1
    parent := some parent
    children := []
    state := if trail.contains c.coordinate then .omittedForCycle else .pending
    constraint := c.constraint
    declaredConstraint := c.constraint
    declaredScope := c.declaredScope
    exclusions := c.exclusions
    management := .empty
    expanded := false
    kept := none }

/-- Attaches a new node below a parent; its id is the size of the arena so far. -/
def attach (g : Graph) (parent : NodeId) (c : Child) : Graph :=
  Graph.update ⟨g.nodes.push (g.childNode parent c)⟩ parent fun n =>
    { n with children := n.children ++ [g.size] }

end Graph

end Mediation
