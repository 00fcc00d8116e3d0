import Mediation.Collection.Run
import Mediation.Proofs.Collection.Decision

/-! # Moves

Everything that happens to a collection while one node is at hand, as a relation:
what the move needs, and what it makes of the collection and of the identities that
have yet to elect a winner. The steps of a collection but expansions are chains of
moves, so what every move preserves is preserved by them.
-/

namespace Mediation

/-- What a source tells: the descriptors of a coordinate with a version, and the versions
chosen for a coordinate under a constraint. -/
structure Evidence where
  describes : Coordinate → Option Version → Descriptor → Prop
  offers : Coordinate → Constraint → Version → Prop

/-- Whether a node may keep its version under its constraint, or has the one chosen for it. -/
def Node.IsBacked (ev : Evidence) (n : Node) : Prop :=
  Run.keepsVersion n.artifact n.constraint = true ∨
    ∃ v, n.version = some v ∧ ev.offers n.artifact.coordinate n.constraint v

namespace Event

def omits (e : Event) (t : Trail) : Bool :=
  match e with
  | omittedForConflict a _ => a.trail == t
  | _ => false

def includes (e : Event) (t : Trail) : Bool :=
  match e with
  | included a => a.trail == t
  | _ => false

/-- Whether events tell that the artifact with a trail became part of the result after it had
lost a conflict. -/
def revive (es : List Event) (t : Trail) : Bool :=
  (es.dropWhile fun e => !e.omits t).any (·.includes t)

end Event

namespace Collection

/-- A collection and the identities that have yet to elect a winner. -/
abbrev Situation := Collection × List Key

/-- Whether a contender is part of the result and stands for the identity of a node. -/
structure IsRival (s : Collection) (x current : NodeId) : Prop where
  mem : current ∈ s.contenders
  included : s.graph.isIncluded current = true
  key : (s.node current).key = (s.node x).key

/-- Whether a constraint is what a winner and a newcomer both accept, which are not both mere
recommendations. -/
structure IsNarrowing (s : Collection) (x current : NodeId) (c : Constraint) : Prop where
  pending : (s.node x).state = .pending
  rival : s.IsRival x current
  hard : ((s.node current).constraint.isSoft && (s.node x).declaredConstraint.isSoft) = false
  meeting : (s.node current).constraint.intersect (s.node x).declaredConstraint = .ok c

/-- Whether a node is a contender below an included node. -/
def InPlay (s : Collection) (j : NodeId) : Prop :=
  j ∈ s.contenders ∧ ∃ p : ℕ, (s.node j).parent = some p ∧ (s.node p).state = .included

/-- Whether an event tells that a node lost a conflict. -/
def IsTold (s : Collection) (j : NodeId) : Prop :=
  ∃ e ∈ s.events.toList, e.omits (s.node j).artifact.trail = true

/-- Whether events tell that a node became part of the result after it had lost a conflict. -/
def IsRevived (s : Collection) (j : NodeId) : Prop :=
  Event.revive s.events.toList (s.node j).artifact.trail = true

def HasRevived (s : Collection) (k : Key) : Prop :=
  ∃ j < s.graph.size, (s.node j).key = k ∧ s.IsRevived j

/-- Whether a newcomer and the winner of its identity are mere recommendations or were narrowed
alike, unless a loser of the identity was revived. -/
def HasMet (s : Collection) (x : NodeId) : Prop :=
  ∀ w, s.winner? (s.node x).key = some w →
    ((s.node w).constraint.isSoft && (s.node x).constraint.isSoft) = true ∨
      (s.node w).constraint = (s.node x).constraint ∨ s.HasRevived (s.node x).key

/-- What may happen while the node `x` is at hand, save its expansion. -/
inductive Move (rules : Rules) (ev : Evidence) (x : NodeId) : Situation → Situation → Prop
  | tell {s : Collection} (e : Event) : Move rules ev x (s, []) (s.emit e, [])
  | choose {s : Collection} {v : Version} (hp : (s.node x).state = .pending)
      (hv : ev.offers (s.node x).artifact.coordinate (s.node x).constraint v) :
      Move rules ev x (s, []) (s.select x v, [])
  | tighten {s : Collection} {current : NodeId} {c : Constraint}
      (hn : s.IsNarrowing x current c) (hv : (s.node x).version.isSome = true)
      (hd : (s.node x).constraint = (s.node x).declaredConstraint) :
      Move rules ev x (s, []) (s.constrain x c, [])
  | retain {s : Collection} {current : NodeId} {c : Constraint} (hn : s.IsNarrowing x current c)
      (hc : (s.node x).constraint = c)
      (hk : Run.keepsVersion (s.node current).artifact c = true) :
      Move rules ev x (s, []) (s.constrain current c, [])
  | shift {s : Collection} {current : NodeId} {c : Constraint} {v : Version}
      (hn : s.IsNarrowing x current c) (hc : (s.node x).constraint = c)
      (hk : Run.keepsVersion (s.node current).artifact c = false)
      (hv : ev.offers (s.node current).artifact.coordinate c v) :
      Move rules ev x (s, []) ((s.constrain current c).rebase current v)
  | abandon {s : Collection} {current : NodeId} {c : Constraint} (e : NodeError)
      (hn : s.IsNarrowing x current c) (hc : (s.node x).constraint = c)
      (hf : s.isFatal rules current = false) :
      Move rules ev x (s, []) ((s.constrain current c).collapse current e)
  | reject {s : Collection} (e : NodeError) (hp : (s.node x).state = .pending)
      (hf : s.isFatal rules x = false) : Move rules ev x (s, []) (s.collapse x e)
  | seat {s : Collection} {w : NodeId} (hp : (s.node x).state = .pending)
      (hb : (s.node x).IsBacked ev) (hw : s.winner? (s.node x).key = none)
      (he : s.elect rules (s.node x).key [x] = .ok w) : Move rules ev x (s, []) (s.accept x, [])
  | yield {s : Collection} {current w : NodeId} (hp : (s.node x).state = .pending)
      (hb : (s.node x).IsBacked ev) (hw : s.winner? (s.node x).key = some current)
      (he : s.elect rules (s.node x).key [min current x, max current x] = .ok w)
      (hne : w ≠ x) (hm : s.HasMet x) : Move rules ev x (s, []) (s.yieldTo w x, [])
  | displace {s : Collection} {current : NodeId} (hp : (s.node x).state = .pending)
      (hb : (s.node x).IsBacked ev) (hw : s.winner? (s.node x).key = some current)
      (hlt : current < x)
      (he : s.elect rules (s.node x).key [min current x, max current x] = .ok x)
      (hm : s.HasMet x) : Move rules ev x (s, []) (s.displace (s.node x).key current x)
  | lose {s : Collection} (e : NodeError) (hr : x ≠ Graph.root)
      (hi : s.graph.isIncluded x = true) (hx : (s.node x).expanded = false)
      (hf : s.isFatal rules x = false) : Move rules ev x (s, []) (s.collapse x e)
  | revive {s : Collection} {k : Key} {ks : List Key} {w : NodeId} (hv : s.isVacant k = true)
      (he : s.elect rules k (s.eligible k) = .ok w) :
      Move rules ev x (s, k :: ks) (s.revive w (s.eligible k), ks)
  | skip {s : Collection} {k : Key} {ks : List Key} (hv : s.isVacant k = false) :
      Move rules ev x (s, k :: ks) (s, ks)

abbrev Moves (rules : Rules) (ev : Evidence) (x : NodeId) : Situation → Situation → Prop :=
  Relation.ReflTransGen (Move rules ev x)

variable {rules : Rules} {ev : Evidence} {x : NodeId} {s t : Collection}

theorem Moves.preserve {P : Situation → Prop} {a b : Situation} (h : Moves rules ev x a b)
    (hP : ∀ a b, Move rules ev x a b → P a → P b) (ha : P a) : P b := by
  induction h with
  | refl => exact ha
  | tail _ hm ih => exact hP _ _ hm ih

theorem Moves.of_reelect {ks : List Key} (h : reelect rules ks s = .ok () t) :
    Moves rules ev x (s, ks) (t, []) := by
  induction ks generalizing s with
  | nil =>
    rw [reelect_nil] at h
    cases h
    exact .refl
  | cons k ks ih =>
    rw [reelect_cons] at h
    cases hv : s.isVacant k with
    | false =>
      simp only [hv, Bool.false_eq_true, if_false] at h
      exact .head (.skip hv) (ih h)
    | true =>
      simp only [hv, if_true] at h
      split at h
      · rename_i w he
        exact .head (.revive hv he) (ih h)
      · cases h

end Collection

end Mediation
