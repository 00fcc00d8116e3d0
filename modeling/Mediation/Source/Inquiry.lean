import Mediation.Source.Basic

/-! # Inquiries

An inquiry is a request to a source that takes some time. Several inquiries wait
together in a window; their answers are taken in order, and each answer taken
makes room for one more inquiry. Time is counted in milliseconds.
-/

namespace Mediation

/-- A request to a source with states `σ`, and how long its answer takes. -/
structure Inquiry (σ α : Type) where
  delay : Nat
  ask : σ → α × σ

namespace Inquiry

variable {σ α β : Type}

def known (a : α) : Inquiry σ α := ⟨0, fun s => (a, s)⟩

def map (f : α → β) (q : Inquiry σ α) : Inquiry σ β :=
  ⟨q.delay, fun s => (f (q.ask s).1, (q.ask s).2)⟩

/-- The inquiry under a limit of time. One that takes longer is given up at the limit, and
the source does not notice it. -/
def bounded (limit : Option Nat) (c : Coordinate) (q : Inquiry σ (SourceAnswer α)) :
    Inquiry σ (SourceAnswer α) :=
  match limit with
  | none => q
  | some l => if l < q.delay then ⟨l, fun s => (.error (.timeout c l), s)⟩ else q

/-- The moments at which inquiries with these delays are answered, given the moments at which
the answers before them were taken, the last one first. -/
def answerTimes (window start : Nat) (taken : List Nat) : List Nat → List Nat
  | [] => []
  | delay :: delays =>
    let answered := (taken[window - 1]?).getD start + delay
    answered ::
      answerTimes window start (max answered (taken.head?.getD start) :: taken) delays

/-- Asks one inquiry after the other, and leaves out those that are not in time. -/
def askInTime (inTime : Nat → Bool) : List (Inquiry σ α × Nat) → σ → List α × σ
  | [], s => ([], s)
  | (q, time) :: rest, s =>
    if inTime time then
      let (a, s) := q.ask s
      let (others, s) := askInTime inTime rest s
      (a :: others, s)
    else askInTime inTime rest s

end Inquiry

namespace Constraint

/-- Whether a recommended version has to be made concrete by a source. -/
def isOpenVersion (v : Version) : Bool := v.isSymbolic || v.isOpenSnapshot

/-- Whether the choice of a version for a constraint asks the source. -/
def needsSource (c : Constraint) : Bool := c.recommended.all isOpenVersion

end Constraint

namespace Source

variable {σ : Type}

def chosen (c : Constraint) : SourceAnswer (List Version) → Except NodeError Version
  | .error e => .error (.metadata e)
  | .ok available => (c.select available).mapError .constraint

/-- The version for an artifact under a constraint: the recommended one, made concrete if it
is open, or the highest acceptable one. -/
def selection (s : Source σ) (limit : Option Nat) (a : Artifact) (c : Constraint) :
    Inquiry σ (Except NodeError Version) :=
  match c.recommended with
  | some v =>
    if Constraint.isOpenVersion v then
      let asked := { a with declared := some v, selected := none }
      (Inquiry.bounded limit a.coordinate ⟨0, s.concretize asked⟩).map (·.mapError .metadata)
    else .known (.ok v)
  | none =>
    (Inquiry.bounded limit a.coordinate ⟨s.latency, s.versions a.coordinate⟩).map (chosen c)

def description (s : Source σ) (limit : Option Nat) (a : Artifact) :
    Inquiry σ (SourceAnswer Descriptor) :=
  .bounded limit a.coordinate ⟨s.latency, s.retrieve a⟩

end Source

end Mediation
