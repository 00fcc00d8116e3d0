import Mediation.Graph.Basic
import Mediation.Text.Blank

/-! # Conflict policies

A policy picks the node that stays among several of one identity. Every policy
prefers the earliest of its equally good candidates.
-/

namespace Mediation

inductive Policy
  | nearest
  | newest
  | oldest
  deriving DecidableEq, Repr, Inhabited

/-- A way to pick one of several nodes, or a reason not to. -/
abbrev Arbiter := List Node → Except Text NodeId

namespace Policy

def all : List Policy := [nearest, newest, oldest]

def name : Policy → Text
  | nearest => "nearest"
  | newest => "newest"
  | oldest => "oldest"

def ofName? (t : Text) : Option Policy := all.find? (·.name == t)

/-- The policy with this name, in any ASCII case and with blanks around it. -/
def read? (t : Text) : Option Policy := ofName? (Text.lower t.trim)

/-- The order of selected versions, where no version comes first. -/
def compareVersions : Option Version → Option Version → Ordering
  | none, none => .eq
  | none, some _ => .lt
  | some _, none => .gt
  | some v, some w => v.compare w

/-- Whether a candidate is strictly better than the best one before it. -/
def prefers (p : Policy) (candidate best : Node) : Bool :=
  match p with
  | nearest => candidate.depth < best.depth
  | newest => compareVersions candidate.version best.version == .gt
  | oldest => compareVersions candidate.version best.version == .lt

def best (p : Policy) (first : Node) (others : List Node) : Node :=
  others.foldl (fun b n => if p.prefers n b then n else b) first

def arbiter (p : Policy) : Arbiter
  | [] => .error "no candidates"
  | n :: ns => .ok (p.best n ns).id

end Policy

end Mediation
