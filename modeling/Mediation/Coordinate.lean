import Mediation.Text.Blank

/-! # Coordinates

A coordinate says what an artifact is: group, artifact id, packaging and perhaps
a classifier. Group and artifact id alone are its identity, which conflicts are
about. An exclusion is an identity in which `*` stands for any text.
-/

namespace Mediation

/-- The identity of an artifact: `group:artifact`. -/
structure Key where
  group : Text
  artifact : Text
  deriving DecidableEq, Repr, Inhabited

/-- What an artifact is, apart from its version. -/
structure Coordinate where
  group : Text
  artifact : Text
  packaging : Text
  classifier : Option Text
  deriving DecidableEq, Repr, Inhabited

/-- The identities to leave out below a dependency. -/
structure Exclusion where
  group : Text
  artifact : Text
  deriving DecidableEq, Repr

/-- A text that is no coordinate (nor identity) or no exclusion. -/
inductive CoordinateError
  | invalidCoordinate (t : Text)
  | invalidExclusion (t : Text)
  deriving DecidableEq, Repr

def CoordinateError.message : CoordinateError → Text
  | invalidCoordinate t =>
    "invalid coordinate '" ++ t ++ "': expected groupId:artifactId[:type[:classifier]]"
  | invalidExclusion t => "invalid exclusion '" ++ t ++ "': expected groupId:artifactId"

/-- The parts of a text between its colons, without blanks around the text. -/
def colonParts (t : Text) : List Text := t.trim.splitOn ':'

namespace Key

def text (k : Key) : Text := k.group ++ ':' :: k.artifact

def read (t : Text) : Except CoordinateError Key :=
  match colonParts t with
  | [g, a] => if g.isEmpty || a.isEmpty then .error (.invalidCoordinate t) else .ok ⟨g, a⟩
  | _ => .error (.invalidCoordinate t)

end Key

namespace Coordinate

def defaultPackaging : Text := "jar"

def jar (group artifact : Text) : Coordinate := ⟨group, artifact, defaultPackaging, none⟩

def key (c : Coordinate) : Key := ⟨c.group, c.artifact⟩

def hasKey (c : Coordinate) (k : Key) : Bool := c.key == k

def text (c : Coordinate) : Text :=
  c.group ++ ':' :: c.artifact ++ ':' :: c.packaging ++ (c.classifier.elim [] fun x => ':' :: x)

/-- The coordinate with two to four parts, given none of them is empty. -/
def ofParts : List Text → Option Coordinate
  | [g, a] => some (jar g a)
  | [g, a, p] => some ⟨g, a, p, none⟩
  | [g, a, p, c] => some ⟨g, a, p, some c⟩
  | _ => none

def read (t : Text) : Except CoordinateError Coordinate :=
  let parts := colonParts t
  match if parts.any List.isEmpty then none else ofParts parts with
  | some c => .ok c
  | none => .error (.invalidCoordinate t)

/-- Group, artifact, packaging and classifier in this order; no classifier comes first. -/
def compare (c d : Coordinate) : Ordering :=
  (Ord.compare c.group d.group).then <|
    (Ord.compare c.artifact d.artifact).then <|
      (Ord.compare c.packaging d.packaging).then <|
        match c.classifier, d.classifier with
        | none, none => .eq
        | none, some _ => .lt
        | some _, none => .gt
        | some x, some y => Ord.compare x y

def sort (cs : List Coordinate) : List Coordinate :=
  cs.mergeSort fun c d => c.compare d != .gt

end Coordinate

namespace Exclusion

/-- The part of an exclusion that any text matches. -/
def wildcard : Text := "*"

def text (e : Exclusion) : Text := e.group ++ ':' :: e.artifact

def read (t : Text) : Except CoordinateError Exclusion :=
  match colonParts t with
  | [g, a] => if g.isEmpty || a.isEmpty then .error (.invalidExclusion t) else .ok ⟨g, a⟩
  | _ => .error (.invalidExclusion t)

def excludes (e : Exclusion) (k : Key) : Bool :=
  (e.group == wildcard || e.group == k.group) &&
    (e.artifact == wildcard || e.artifact == k.artifact)

end Exclusion

end Mediation
