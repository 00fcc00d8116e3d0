import Mediation.Collection.Basic

/-! # Conflicts

Among the contenders of one identity at most one is part of the result. When a
winner loses its place, everything below it is disabled, and the identities that
lost their winner with it elect another one.
-/

namespace Mediation.Collection

/-- Asks the arbiter for a winner, which has to be one of the candidates. -/
def elect (rules : Rules) (s : Collection) (k : Key) (candidates : List NodeId) :
    Except ResolveError NodeId :=
  let nodes := candidates.map s.node
  let trail := nodes.head?.elim [] (·.artifact.trail)
  match rules.arbiter nodes with
  | .ok choice =>
    if candidates.contains choice then .ok choice else .error (.noWinner k trail (.foreign choice))
  | .error reason => .error (.noWinner k trail (.refused reason))

/-- The state of a node whose subtree was taken out of the result. -/
def disabledState : NodeState → NodeState
  | .included => .omittedForConflict
  | .pending => .omittedForConflict
  | state => state

def keysBelow (s : Collection) (id : NodeId) : List Key :=
  ((s.graph.descendants id).filter s.graph.isIncluded).map fun d => (s.node d).key

def disableBelow (s : Collection) (id : NodeId) : Collection :=
  (s.graph.descendants id).foldl
    (fun s d => s.update d fun n => { n with state := disabledState n.state }) s

/-- Cuts off everything below a node, so that it can be expanded afresh. -/
def prune (s : Collection) (id : NodeId) : Collection :=
  (s.forget (s.graph.descendants id)).update id fun n =>
    { n with children := [], expanded := false }

/-- Whether a contender may take the place of a lost winner: it was omitted, has a version,
and its parent is part of the result. -/
def isEligible (s : Collection) (id : NodeId) : Bool :=
  let n := s.node id
  n.state == .omittedForConflict && n.version.isSome && n.parent.any s.graph.isIncluded

def eligible (s : Collection) (k : Key) : List NodeId := (s.contendersOf k).filter s.isEligible

/-- Makes a contender the winner among the eligible ones; it is expanded afresh. -/
def revive (s : Collection) (winner : NodeId) (candidates : List NodeId) : Collection :=
  let s := candidates.foldl (fun s c => s.update c fun n => { n with kept := some winner }) s
  let s := if (s.node winner).expanded then s.prune winner else s
  (s.accept winner).enqueue winner

/-- Elects winners for identities that have none, as far as there are candidates. -/
def reelect (rules : Rules) : List Key → Step Unit
  | [] => pure ()
  | k :: ks => do
    let s ← get
    let candidates := s.eligible k
    if (s.winner? k).isNone && !candidates.isEmpty then
      let winner ← Step.ofExcept (s.elect rules k candidates)
      set (s.revive winner candidates)
    reelect rules ks

def rescope (s : Collection) (id : NodeId) : Collection :=
  let scope := do
    let parent ← (s.node id).parent
    (s.node parent).artifact.scope.inherit (s.node id).declaredScope
  scope.elim s fun scope =>
    s.update id fun n => { n with artifact := { n.artifact with scope := scope } }

/-- Carries the wider scope of a loser over to the winner and to what is below it. Direct
dependencies keep the scope they were declared with. -/
def widenScope (s : Collection) (winner loser : NodeId) : Collection :=
  let kept := s.node winner
  let scope := (s.node loser).artifact.scope
  if !scope.isWiderThan kept.artifact.scope then s
  else if kept.depth = 1 then s.emit (.scopeKept kept.artifact scope)
  else
    let s := s.emit (.scopeWidened kept.artifact scope)
    let s := s.update winner fun n => { n with artifact := { n.artifact with scope := scope } }
    (s.graph.descendants winner).foldl rescope s

/-- Lets the losers that pointed at one node point at another one. -/
def redirect (s : Collection) (k : Key) (old new : NodeId) : Collection :=
  ((s.contendersOf k).filter fun id => (s.node id).kept == some old).foldl
    (fun s id => s.update id fun n => { n with kept := some new }) s

def resolveConflict (rules : Rules) (k : Key) (current newcomer : NodeId) : Step Unit := do
  let s ← get
  let winner ← Step.ofExcept <| s.elect rules k [min current newcomer, max current newcomer]
  let loser := if winner = newcomer then current else newcomer
  let s := s.update loser fun n => { n with state := .omittedForConflict, kept := some winner }
  let s := s.emit (.omittedForConflict (s.node loser).artifact (s.node winner).artifact)
  if winner = newcomer then
    let s := ((s.accept newcomer).redirect k current newcomer).widenScope newcomer current
    if (s.node current).expanded then
      set (s.disableBelow current)
      reelect rules (s.keysBelow current)
    else set s
  else set (s.widenScope winner loser)

/-- Records a failed node. The failure aborts the resolution if the node is a direct
dependency, or any in strict mode, and not optional. -/
def fail (rules : Rules) (id : NodeId) (e : NodeError) : Step Unit := do
  let wasIncluded := (← get).graph.isIncluded id
  modify fun s => s.update id fun n => { n with state := .failed }
  let s ← get
  let n := s.node id
  if !n.artifact.optional && (n.depth = 1 || rules.strict) then
    throw (.requiredArtifact n.artifact e)
  let s := s.report id e
  set s
  if wasIncluded then
    if n.expanded then
      set (s.disableBelow id)
      reelect rules (n.key :: s.keysBelow id)
    else reelect rules [n.key]

/-- Gives an included node another version; what was below it is cut off. -/
def changeVersion (rules : Rules) (id : NodeId) (v : Version) : Step Unit := do
  let s := (← get).select id v
  if (s.node id).expanded then
    set (((s.disableBelow id).prune id).enqueue id)
    reelect rules (s.keysBelow id)
  else set s

/-- Settles a node that has a version: it is the first of its identity, or in conflict. -/
def settle (rules : Rules) (id : NodeId) : Step Unit := do
  let s ← get
  let k := (s.node id).key
  match s.winner? k with
  | some current => resolveConflict rules k current id
  | none =>
    let _ ← Step.ofExcept (s.elect rules k [id])
    set (s.accept id)

end Mediation.Collection
