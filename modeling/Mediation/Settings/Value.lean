import Mediation.Policy
import Mediation.Time.Duration
import Mediation.Time.UpdatePolicy

/-! # Single settings

The texts of switches, limits, policies and scopes. A text that does not read is
an error that names the setting and says what was expected.
-/

namespace Mediation

/-- What the text of a setting should have been. -/
inductive Expected
  | switch
  | policy
  | updatePolicy
  | count
  | duration
  | scope
  deriving DecidableEq, Repr

def Expected.text : Expected → Text
  | switch => "expected a boolean"
  | policy => "expected nearest, newest or oldest"
  | updatePolicy => "expected always, daily, never or interval:<minutes>"
  | count => "expected a positive integer"
  | duration => "expected a duration in seconds"
  | scope => "unknown scope"

inductive SettingsFault
  | noFetches
  | emptyId
  | duplicateId (id : Text)
  deriving DecidableEq, Repr

def SettingsFault.text : SettingsFault → Text
  | noFetches => "max-concurrent-fetches must be at least 1"
  | emptyId => "repository id must not be empty"
  | duplicateId id => "duplicate repository id '" ++ id ++ "'"

inductive SettingsError
  | unreadable
  | malformed
  | invalidValue (key : Text) (value : Text) (expected : Expected)
  | unusable (fault : SettingsFault)
  deriving DecidableEq, Repr

def SettingsError.message : SettingsError → Text
  | unreadable => "failed to read the settings file"
  | malformed => "invalid settings file"
  | invalidValue key value expected =>
    "invalid value '" ++ value ++ "' for " ++ key ++ ": " ++ expected.text
  | unusable fault => "invalid settings: " ++ fault.text

namespace Setting

def onNames : List Text := ["1", "true", "yes", "on"]

def offNames : List Text := ["0", "false", "no", "off"]

/-- Reads a switch, in any ASCII case and with blanks around it. -/
def switch? (t : Text) : Option Bool :=
  let name := Text.lower t.trim
  if onNames.contains name then some true
  else if offNames.contains name then some false
  else none

def count? (t : Text) : Option Nat := Text.readBelow Text.word64 t.trim

/-- The result of reading the text of a setting, or the error that names the setting. -/
def orInvalid {α : Type} (key value : Text) (expected : Expected) :
    Option α → Except SettingsError α
  | some a => .ok a
  | none => .error (.invalidValue key value expected)

def readSwitch (key t : Text) : Except SettingsError Bool :=
  orInvalid key t .switch (switch? t)

def readDuration (key t : Text) : Except SettingsError Nat :=
  orInvalid key t .duration (Duration.seconds? t)

def readPolicy (key t : Text) : Except SettingsError Policy :=
  orInvalid key t .policy (Policy.read? t)

def readUpdatePolicy (key t : Text) : Except SettingsError UpdatePolicy :=
  orInvalid key t .updatePolicy (UpdatePolicy.read? t)

end Setting

end Mediation
