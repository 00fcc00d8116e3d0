import Mediation.Text.Decimal

/-! # JSON values

Values as they stand in a document: numbers keep their spelling and objects keep
the order of their members. A string that stands for no text leaves a value that
can be skipped but not used. Records are read by the names of their fields, or by
position from an array.
-/

namespace Mediation

inductive Json
  | null
  | bool (b : Bool)
  | number (spelling : Text)
  | string (t : Text)
  /-- A string with an escaped surrogate outside a pair, or an object with such a name. -/
  | unpaired
  | array (elements : List Json)
  | object (members : List (Text × Json))
  deriving Inhabited

namespace Json

def ofOption {α : Type} (form : α → Json) : Option α → Json
  | none => null
  | some a => form a

def ofNat (n : Nat) : Json := number (Text.ofNat n)

def ofTexts (ts : List Text) : Json := array (ts.map string)

def text? : Json → Option Text
  | string t => some t
  | _ => none

def bool? : Json → Option Bool
  | bool b => some b
  | _ => none

def array? : Json → Option (List Json)
  | array xs => some xs
  | _ => none

def natBelow? (bound : Nat) : Json → Option Nat
  | number s => if Text.isNumeric s && Text.value s < bound then some (Text.value s) else none
  | _ => none

def optional? {α : Type} (read : Json → Option α) : Json → Option (Option α)
  | null => some none
  | j => (read j).map some

def list? {α : Type} (read : Json → Option α) (j : Json) : Option (List α) := do
  (← j.array?).mapM read

def texts? (j : Json) : Option (List Text) := j.list? text?

/-- The name of a variant: a string, or an object that gives null to the name. -/
def variant? : Json → Option Text
  | string t => some t
  | object [(t, null)] => some t
  | _ => none

/-- The fields of a record in the order of `names`, from an object without a repeated field
or from an array of at most as many elements. -/
def fields? (names : List Text) : Json → Option (List (Option Json))
  | object members =>
    if names.any fun name => 1 < (members.filter (·.1 == name)).length then none
    else some (names.map fun name => members.lookup name)
  | array elements =>
    if names.length < elements.length then none
    else some (elements.map some ++ List.replicate (names.length - elements.length) none)
  | _ => none

def required? {α : Type} (read : Json → Option α) (field : Option Json) : Option α :=
  field.bind read

/-- The value of a field, or a default if it is not there. -/
def orDefault? {α : Type} (default : α) (read : Json → Option α) : Option Json → Option α
  | none => some default
  | some j => read j

end Json

end Mediation
