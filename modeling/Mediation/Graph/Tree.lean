import Mediation.Graph.Basic

/-! # Printed trees

The visible part of a graph with one node a line. Nodes that are not part of the
result stand in parentheses together with the reason.
-/

namespace Mediation.Graph

/-- Whether a node was omitted for another one of the same version. -/
def isDuplicate (n : Node) (kept : Version) : Bool := n.version.any kept.same

def label (g : Graph) (n : Node) : Text :=
  let artifact := n.artifact.text
  match n.state with
  | .included => artifact
  | .pending => artifact
  | .omittedForCycle => "(" ++ artifact ++ " - omitted for cycle)"
  | .failed => "(" ++ artifact ++ " - failed)"
  | .omittedForConflict =>
    match (n.kept.bind g.get?).bind Node.version with
    | none => "(" ++ artifact ++ " - omitted for conflict)"
    | some v =>
      if isDuplicate n v then "(" ++ artifact ++ " - omitted for duplicate)"
      else "(" ++ artifact ++ " - omitted for conflict with " ++ v.text ++ ")"

def nested (margin : Text) (isLast : Bool) : Text := margin ++ (if isLast then "   " else "|  ")

/-- The members of a list, each with whether it is the last one. -/
def withLast {α : Type} : List α → List (α × Bool)
  | [] => []
  | [x] => [(x, true)]
  | x :: xs => (x, false) :: withLast xs

/-- The lines of what is shown below a node, for so many levels. -/
def linesBelow (g : Graph) : Nat → Text → NodeId → Text
  | 0, _, _ => []
  | n + 1, margin, id =>
    (withLast (g.children id)).flatMap fun (child, isLast) =>
      margin ++ (if isLast then "\\- " else "+- ") ++ g.label (g.node child) ++ "\n" ++
        (if g.isIncluded child then g.linesBelow n (nested margin isLast) child else [])

def render (g : Graph) : Text :=
  let n := g.node root
  n.artifact.coordinate.text ++ (n.version.elim [] fun v => ':' :: v.text) ++ "\n" ++
    g.linesBelow g.size [] root

end Mediation.Graph
