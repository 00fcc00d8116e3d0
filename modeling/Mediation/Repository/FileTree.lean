import Mediation.Table
import Mediation.Text.Basic

/-! # File trees

A tree of directories and files, addressed by paths from its root. A path is
walked name by name; every name but the last has to lead to a directory.
-/

namespace Mediation

/-- What stands at a place of a file tree. The content of a file is nothing if its bytes
are no text. -/
inductive FileEntry
  | directory
  | file (content : Option Text)
  deriving DecidableEq, Repr

/-- Why a path leads nowhere, or not to what was asked for. -/
inductive PathFault
  | missing
  | notDirectory
  | isDirectory
  | tooLong
  | nulCharacter
  deriving DecidableEq, Repr

def PathFault.message : PathFault → Text
  | missing => "No such file or directory (os error 2)"
  | notDirectory => "Not a directory (os error 20)"
  | isDirectory => "Is a directory (os error 21)"
  | tooLong => "File name too long (os error 36)"
  | nulCharacter => "file name contained an unexpected NUL byte"

/-- Directories and files by their names from the root, which is always a directory. -/
structure FileTree where
  entries : Table (List Text) FileEntry
  deriving Repr

namespace FileTree

def empty : FileTree := ⟨.empty⟩

def entry? (t : FileTree) (place : List Text) : Option FileEntry :=
  if place.isEmpty then some .directory else t.entries.get? place

def isDirectory (t : FileTree) (place : List Text) : Bool := t.entry? place == some .directory

def byteLength : Text → Nat
  | [] => 0
  | c :: t => c.utf8Size + byteLength t

def nameLimit : Nat := 255

def pathLimit : Nat := 4095

/-- The names of a path, if its characters and its length are those of a path. -/
def names (path : Text) : Except PathFault (List Text) :=
  if path.contains '\x00' then .error .nulCharacter
  else if pathLimit < byteLength path then .error .tooLong
  else .ok (path.splitOn '/')

def next (t : FileTree) (place : List Text) (name : Text) : Except PathFault (List Text) :=
  if !t.isDirectory place then .error .notDirectory
  else if name.isEmpty || name = ['.'] then .ok place
  else if name = ['.', '.'] then .ok place.dropLast
  else if nameLimit < byteLength name then .error .tooLong
  else .ok (place ++ [name])

def walk (t : FileTree) (place : List Text) : List Text → Except PathFault (List Text)
  | [] => .ok place
  | name :: rest => do
    let place ← t.next place name
    if (t.entry? place).isNone then throw .missing
    t.walk place rest

def read (t : FileTree) (path : Text) : Except PathFault (Option Text) := do
  let place ← t.walk [] (← names path)
  match t.entry? place with
  | some (.file content) => return content
  | some .directory => throw .isDirectory
  | none => throw .missing

def makeDirectories (t : FileTree) (place : List Text) :
    List Text → Except PathFault (List Text) × FileTree
  | [] => if t.isDirectory place then (.ok place, t) else (.error .notDirectory, t)
  | name :: rest =>
    match t.next place name with
    | .error fault => (.error fault, t)
    | .ok place =>
      if (t.entry? place).isSome then t.makeDirectories place rest
      else makeDirectories ⟨t.entries.put place .directory⟩ place rest

def write (t : FileTree) (path : Text) (content : Option Text) : Except PathFault Unit × FileTree :=
  match names path with
  | .error fault => (.error fault, t)
  | .ok ns =>
    match t.makeDirectories [] ns.dropLast with
    | (.error fault, t) => (.error fault, t)
    | (.ok parent, t) =>
      match t.next parent (ns.getLastD []) with
      | .error fault => (.error fault, t)
      | .ok place =>
        if t.isDirectory place then (.error .isDirectory, t)
        else (.ok (), ⟨t.entries.put place (.file content)⟩)

end FileTree

end Mediation
