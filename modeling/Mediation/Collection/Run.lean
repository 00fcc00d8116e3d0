import Mediation.Collection.Conflict
import Mediation.Collection.Expansion
import Mediation.Source.Inquiry

/-! # Runs

A run collects dependencies level by level. Each round selects versions for the
new nodes, registers them in the order of discovery, fetches the descriptors of
those that are included, and expands these into the next level.
-/

namespace Mediation

/-- How many inquiries wait together, how long each may take, and when a run has to end. -/
structure Limits where
  window : Nat
  fetch : Option Nat
  deadline : Option Nat
  deriving DecidableEq, Repr

structure Session (σ : Type) where
  source : Source σ
  rules : Rules
  limits : Limits

/-- The state of a run: the collection, the source, the time and the number of inquiries. -/
structure Run (σ : Type) where
  collection : Collection
  source : σ
  clock : Nat
  fetches : Nat

abbrev RunM (σ : Type) := EStateM ResolveError (Run σ)

namespace Run

variable {σ α : Type}

def lift (step : Step α) : RunM σ α := fun r =>
  match step r.collection with
  | .ok a c => .ok a { r with collection := c }
  | .error e c => .error e { r with collection := c }

def collected : RunM σ Collection := do return (← get).collection

def alter (f : Collection → Collection) : RunM σ Unit :=
  modify fun r => { r with collection := f r.collection }

def count (n : Nat) : RunM σ Unit := modify fun r => { r with fetches := r.fetches + n }

def inTime (limits : Limits) (time : Nat) : Bool := limits.deadline.all (time ≤ ·)

/-- Asks inquiries together, and waits for all answers unless the deadline is passed. -/
def askAll (limits : Limits) (qs : List (Inquiry σ α)) : RunM σ (List α) := do
  let r ← get
  let times := Inquiry.answerTimes limits.window r.clock [] (qs.map (·.delay))
  let (answers, source) := Inquiry.askInTime (inTime limits) (qs.zip times) r.source
  set { r with source := source, clock := times.foldl max r.clock }
  if times.all (inTime limits) then return answers else throw .timeout

/-- Asks one inquiry, and waits for its answer unless the deadline is passed. -/
def ask (limits : Limits) (q : Inquiry σ α) : RunM σ α := do
  let r ← get
  let time := r.clock + q.delay
  if inTime limits time then
    let (a, source) := q.ask r.source
    set { r with source := source, clock := time }
    return a
  else throw .timeout

/-- Whether an artifact may keep its version under a constraint: it has the recommended
version, or was declared with it, or its version is acceptable when none is recommended. -/
def keepsVersion (a : Artifact) (c : Constraint) : Bool :=
  match c.recommended with
  | some v => a.selected.any v.same || (a.selected.isSome && a.declared.any v.same)
  | none => a.selected.any c.contains

/-- The version that a node has to move to under a constraint, if it cannot keep its own. -/
def reselect (session : Session σ) (id : NodeId) (c : Constraint) :
    RunM σ (Except NodeError (Option Version)) := do
  let a := ((← collected).node id).artifact
  if keepsVersion a c then return .ok none
  else
    count (if c.needsSource then 1 else 0)
    return (← ask session.limits (session.source.selection session.limits.fetch a c)).map some

/-- Narrows the constraints of a winner and a newcomer to what both accept, unless both are
mere recommendations, and moves both to a version that is left. -/
def restrict (session : Session σ) (current newcomer : NodeId) : RunM σ Unit := do
  let s ← collected
  let mine := (s.node current).constraint
  let theirs := (s.node newcomer).constraint
  if mine.isSoft && theirs.isSoft then return
  match mine.intersect theirs with
  | .error e => lift (Collection.fail session.rules newcomer (.constraint e))
  | .ok c =>
    alter (·.emit (.narrowed (s.node current).artifact (s.node newcomer).artifact c))
    alter (·.constrain newcomer c)
    match ← reselect session newcomer c with
    | .error e => lift (Collection.fail session.rules newcomer e)
    | .ok choice =>
      alter fun s => choice.elim s (s.select newcomer)
      alter (·.constrain current c)
      match ← reselect session current c with
      | .error e => lift (Collection.fail session.rules current e)
      | .ok none => return
      | .ok (some v) => lift (Collection.changeVersion session.rules current v)

/-- Settles a node whose version was selected, unless it lost its place meanwhile. -/
def register (session : Session σ) (id : NodeId) (selection : Except NodeError Version) :
    RunM σ Unit := do
  if ((← collected).node id).state ≠ .pending then return
  match selection with
  | .error e => lift (Collection.fail session.rules id e)
  | .ok v =>
    alter (·.select id v)
    let n := (← collected).node id
    if n.constraint.isRange then alter (·.emit (.chosenFromRange n.artifact))
    if let some current := (← collected).winner? n.key then
      restrict session current id
    if ((← collected).node id).state = .pending then lift (Collection.settle session.rules id)

def registerAll (session : Session σ) : List (NodeId × Except NodeError Version) → RunM σ Unit
  | [] => pure ()
  | (id, selection) :: rest => do
    register session id selection
    registerAll session rest

/-- Expands or fails a node whose descriptor was fetched, unless it lost its place. -/
def describe (session : Session σ) (id : NodeId) (d : SourceAnswer Descriptor) :
    RunM σ (List NodeId) := do
  let s ← collected
  if !s.graph.isIncluded id then return []
  match d with
  | .error e =>
    lift (Collection.fail session.rules id (.metadata e))
    return []
  | .ok d =>
    let (created, s) := s.expand session.rules id d
    alter fun _ => s
    return created

def describeAll (session : Session σ) :
    List (NodeId × SourceAnswer Descriptor) → RunM σ (List NodeId)
  | [] => pure []
  | (id, d) :: rest => do
    let created ← describe session id d
    return created ++ (← describeAll session rest)

def selectAll (session : Session σ) (level : List NodeId) :
    RunM σ (List (NodeId × Except NodeError Version)) := do
  let s ← collected
  let ids := level.filter fun id => (s.node id).state == .pending
  let selections ← askAll session.limits <| ids.map fun id =>
    session.source.selection session.limits.fetch (s.node id).artifact (s.node id).constraint
  count (ids.countP fun id => (s.node id).constraint.needsSource)
  return ids.zip selections

/-- The nodes to expand: those that wait for it and those of the level, as far as they are
part of the result and not expanded yet. -/
def expandable (s : Collection) (level : List NodeId) : List NodeId :=
  ((s.requeue ++ level).eraseDups).filter fun id => s.graph.isIncluded id && !(s.node id).expanded

def fetchAll (session : Session σ) (level : List NodeId) :
    RunM σ (List (NodeId × SourceAnswer Descriptor)) := do
  let s ← collected
  let ids := expandable s level
  alter fun s => { s with requeue := [] }
  count ids.length
  let descriptors ← askAll session.limits <| ids.map fun id =>
    session.source.description session.limits.fetch (s.node id).artifact
  return ids.zip descriptors

def round (session : Session σ) (level : List NodeId) : RunM σ (List NodeId) := do
  registerAll session (← selectAll session level)
  describeAll session (← fetchAll session level)

/-- Whether nothing is left to do after a level. -/
def isSettled (r : Run σ) (level : List NodeId) : Bool :=
  level.isEmpty && r.collection.requeue.isEmpty

/-- Runs at most so many rounds, and tells whether nothing is left to do. -/
def rounds (session : Session σ) : Nat → List NodeId → RunM σ Bool
  | 0, level => do return (← get).isSettled level
  | n + 1, level => do
    if (← get).isSettled level then return true
    else rounds session n (← round session level)

end Run

end Mediation
