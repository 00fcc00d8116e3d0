import Mediation.Coordinate

/-! # Keys of metadata

Metadata exist for an artifact and for each of its snapshot versions. A key says
which, and where a repository keeps them: as a path of a file system, to which
parts are pushed one by one, and as a path of a URL.
-/

namespace Mediation

/-- An artifact, or one of its snapshot versions. -/
structure MetadataKey where
  group : Text
  artifact : Text
  version : Option Text
  deriving DecidableEq, Repr, Inhabited

namespace Path

def isAbsolute (p : Text) : Bool := p.head? == some '/'

/-- A path extended by a part; an absolute part replaces the path. -/
def push (path part : Text) : Text :=
  if isAbsolute part then part
  else if path.isEmpty || path.getLast? == some '/' then path ++ part
  else path ++ '/' :: part

def ofParts (parts : List Text) : Text := parts.foldl push []

end Path

namespace MetadataKey

def fileName : Text := "maestro-metadata.json"

def ofKey (k : Key) : MetadataKey := ⟨k.group, k.artifact, none⟩

def ofVersion (k : Key) (version : Text) : MetadataKey := ⟨k.group, k.artifact, some version⟩

def text (k : MetadataKey) : Text :=
  k.group ++ ':' :: k.artifact ++ (k.version.elim [] fun v => ':' :: v)

/-- The key of a text cut at its first two colons; what is missing is empty. -/
def ofText (t : Text) : MetadataKey :=
  match Text.cutAt ':' t with
  | none => ⟨t, [], none⟩
  | some (group, rest) =>
    match Text.cutAt ':' rest with
    | none => ⟨group, rest, none⟩
    | some (artifact, version) => ⟨group, artifact, some version⟩

def parts (k : MetadataKey) : List Text :=
  k.group.splitOn '.' ++ [k.artifact] ++ k.version.toList ++ [fileName]

def relativePath (k : MetadataKey) : Text := Path.ofParts k.parts

def urlPath (k : MetadataKey) : Text :=
  k.group.map (fun c => if c == '.' then '/' else c) ++ '/' :: k.artifact ++
    (k.version.elim [] fun v => '/' :: v) ++ '/' :: fileName

end MetadataKey

end Mediation
