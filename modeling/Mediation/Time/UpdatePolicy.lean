import Mediation.Text.Blank
import Mediation.Time.Moment

/-! # Update policies

An update policy says when a remote answer has to be fetched again.
-/

namespace Mediation

inductive UpdatePolicy
  | always
  | daily
  | never
  | interval (minutes : Nat)
  deriving DecidableEq, Repr, Inhabited

namespace UpdatePolicy

def text : UpdatePolicy → Text
  | always => "always"
  | daily => "daily"
  | never => "never"
  | interval minutes => "interval:" ++ Text.ofNat minutes

def plain : List (Text × UpdatePolicy) :=
  [("always", always), ("daily", daily), ("never", never)]

def intervalMark : Text := "interval:"

/-- Reads a policy, in any ASCII case and with blanks around it; minutes fit 32 bits. -/
def read? (t : Text) : Option UpdatePolicy :=
  let lowered := Text.lower t.trim
  match plain.lookup lowered with
  | some p => some p
  | none =>
    if intervalMark.isPrefixOf lowered then
      (Text.readBelow Text.word32 (lowered.drop intervalMark.length)).map interval
    else none

/-- Whether what was checked at `last` has to be fetched again at `now`. Days are those of UTC. -/
def requiresUpdate (p : UpdatePolicy) (last now : Moment) : Bool :=
  match p with
  | always => true
  | never => false
  | daily => last.day < now.day
  | interval minutes => (minutes : Int) * 60000 ≤ now - last

end UpdatePolicy

end Mediation
