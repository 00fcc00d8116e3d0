import Mediation.Metadata.Json
import Mediation.Repository.FileTree
import Mediation.Repository.Store

/-! # Repositories on disk

Each envelope is a file of its own below the directory of its repository. Remote
repositories are directories as well, as long as their URLs name files.
-/

namespace Mediation

/-- A file tree with repositories, and whether the remote ones may be asked. -/
structure Disk where
  tree : FileTree
  isOnline : Bool
  deriving Repr

namespace Disk

def inDirectory (path : Text) (isOnline : Bool) : Disk :=
  match FileTree.names path with
  | .ok names => ⟨(FileTree.empty.makeDirectories [] names).2, isOnline⟩
  | .error _ => ⟨.empty, isOnline⟩

def directory (key : MetadataKey) (r : Repository) : Except RetrievalError Text :=
  match r.location with
  | .directory path => .ok path
  | .remote url =>
    match url.filePath? with
    | some path => .ok path
    | none => .error (.unavailable key r.id ("no transport for scheme '" ++ url.scheme ++ "'"))

/-- The file that holds the envelope of a key in a repository. -/
def envelopePath (key : MetadataKey) (r : Repository) : Except RetrievalError Text :=
  (directory key r).map fun root => Path.push root key.relativePath

/-- What a repository answers; a file that does not exist is the absence of an envelope. -/
def answer (d : Disk) (key : MetadataKey) (r : Repository) : Answer := do
  let path ← envelopePath key r
  match d.tree.read path with
  | .error .missing => return none
  | .error fault => throw (.unavailable key r.id fault.message)
  | .ok none => throw (.unavailable key r.id "stream did not contain valid UTF-8")
  | .ok (some text) =>
    match Envelope.ofDocument? text with
    | some e => return some e
    | none => throw (.malformed key r.id)

instance : Store Disk where
  isOnline := Disk.isOnline
  fetch key r d := (d.answer key r, d)

def store (d : Disk) (r : Repository) (e : Envelope) : Except RetrievalError Text × Disk :=
  match envelopePath e.key r with
  | .error err => (.error err, d)
  | .ok path =>
    match d.tree.write path (some e.document) with
    | (.error fault, tree) => (.error (.unavailable e.key r.id fault.message), { d with tree })
    | (.ok _, tree) => (.ok path, { d with tree })

end Disk

end Mediation
