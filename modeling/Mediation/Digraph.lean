/-! # Directed graphs

A finite directed graph lists the successors of each of its vertices. Its strongly
connected components come out in an order in which every component stands behind
the ones that it leads to.
-/

namespace Mediation

/-- The vertices of a directed graph, each with its successors in the order of visits. -/
structure Digraph where
  adjacency : List (Nat × List Nat)
  deriving Repr

/-- A walk under way: the vertices that were entered, and those that were left, both the
last one first. -/
structure Visits where
  entered : List Nat
  left : List Nat
  deriving Repr

namespace Digraph

def vertices (d : Digraph) : List Nat := d.adjacency.map (·.1)

def successors (d : Digraph) (v : Nat) : List Nat := (d.adjacency.lookup v).getD []

/-- Walks depth first from a vertex that was not entered before, at most `fuel` deep. -/
def visit (d : Digraph) : Nat → Visits → Nat → Visits
  | 0, w, _ => w
  | fuel + 1, w, v =>
    if w.entered.contains v then w
    else
      let w := (d.successors v).foldl (d.visit fuel) ⟨v :: w.entered, w.left⟩
      ⟨w.entered, v :: w.left⟩

/-- A walk from each vertex of a list; no path is longer than the number of vertices. -/
def visitAll (d : Digraph) (vs : List Nat) : Visits :=
  vs.foldl (d.visit (d.adjacency.length + 1)) ⟨[], []⟩

def reachable (d : Digraph) (v : Nat) : List Nat := (d.visitAll [v]).left

/-- The graph in which every vertex has all vertices it leads to as successors. -/
def closure (d : Digraph) : Digraph := ⟨d.vertices.map fun v => (v, d.reachable v)⟩

def isMutual (closed : Digraph) (v w : Nat) : Bool :=
  (closed.successors v).contains w && (closed.successors w).contains v

/-- The components of the vertices of a list, each at the place of its last member. -/
def componentsOf (closed : Digraph) : List Nat → List (List Nat)
  | [] => []
  | v :: vs =>
    if vs.any (closed.isMutual v) then componentsOf closed vs
    else
      (closed.vertices.filter (closed.isMutual v)).mergeSort (· ≤ ·) :: componentsOf closed vs

/-- The strongly connected components, each sorted. A walk leaves a component when it leaves
the vertex through which it entered, and by then it has left all that the component leads to. -/
def components (d : Digraph) : List (List Nat) :=
  d.closure.componentsOf (d.visitAll d.vertices).left.reverse

end Digraph

end Mediation
