import Mediation.Text.Blank
import Mediation.Time.UpdatePolicy
import Mediation.Url.Basic

/-! # Repositories

A repository of metadata is the local directory or a remote URL. Remote answers
are reused as long as the update policy of their repository allows.
-/

namespace Mediation

/-- A remote repository as settings declare it. -/
structure RepositoryDefinition where
  id : Text
  url : Url
  policy : UpdatePolicy
  deriving DecidableEq, Repr

inductive Location
  | directory (path : Text)
  | remote (url : Url)
  deriving DecidableEq, Repr

def Location.text : Location → Text
  | directory path => path
  | remote url => url.text

structure Repository where
  id : Text
  location : Location
  policy : UpdatePolicy
  deriving DecidableEq, Repr

namespace Repository

def localId : Text := "local"

/-- The local repository in a directory; it is always read afresh. -/
def inDirectory (path : Text) : Repository := ⟨localId, .directory path, .always⟩

def isLocal (r : Repository) : Bool :=
  match r.location with
  | .directory _ => true
  | .remote _ => false

def directory? (r : Repository) : Option Text :=
  match r.location with
  | .directory path => some path
  | .remote _ => none

def text (r : Repository) : Text := r.id ++ " (" ++ r.location.text ++ ")"

end Repository

inductive DefinitionFault
  | emptyId
  | reservedId
  deriving DecidableEq, Repr

def DefinitionFault.message : DefinitionFault → Text
  | emptyId => "empty id"
  | reservedId => "'" ++ Repository.localId ++ "' is reserved for the local repository"

/-- A definition that no repository can be made of. -/
structure InvalidRepository where
  id : Text
  fault : DefinitionFault
  deriving DecidableEq, Repr

def InvalidRepository.message (e : InvalidRepository) : Text :=
  "invalid repository '" ++ e.id ++ "': " ++ e.fault.message

/-- The repository of a definition, whose id is neither blank nor that of the local one. -/
def RepositoryDefinition.repository (d : RepositoryDefinition) :
    Except InvalidRepository Repository :=
  if Text.allBlank d.id then .error ⟨d.id, .emptyId⟩
  else if d.id = Repository.localId then .error ⟨d.id, .reservedId⟩
  else .ok ⟨d.id, .remote d.url, d.policy⟩

end Mediation
