import Mediation.Url.Percent

/-! # URLs

The parts of an absolute URL in normal form, its text, and the file it names.
-/

namespace Mediation

/-- An absolute URL. The host is present for every special scheme; an opaque path
belongs to a scheme without hierarchy. -/
structure Url where
  scheme : Text
  user : Text
  password : Text
  host : Option Text
  port : Option Nat
  path : Text
  isOpaque : Bool
  query : Option Text
  fragment : Option Text
  deriving DecidableEq, Repr

namespace Url

/-- The schemes with a host, and the port that each of them does not mention. -/
def specialSchemes : List (Text × Option Nat) :=
  [("http", some 80), ("https", some 443), ("ws", some 80), ("wss", some 443),
    ("ftp", some 21), ("file", none)]

def isSpecial (scheme : Text) : Bool := (specialSchemes.lookup scheme).isSome

def defaultPort? (scheme : Text) : Option Nat := (specialSchemes.lookup scheme).join

def credentials (u : Url) : Text :=
  if u.user.isEmpty && u.password.isEmpty then []
  else u.user ++ (if u.password.isEmpty then [] else ':' :: u.password) ++ "@"

/-- What stands between scheme and path. A path that begins with two slashes needs a dot
in front when there is no host. -/
def authority (u : Url) : Text :=
  match u.host with
  | some h => "//" ++ u.credentials ++ h ++ (u.port.elim [] fun p => ':' :: Text.ofNat p)
  | none => if !u.isOpaque && "//".toList.isPrefixOf u.path then "/." else []

def text (u : Url) : Text :=
  u.scheme ++ ":" ++ u.authority ++ u.path ++ (u.query.elim [] fun q => '?' :: q) ++
    (u.fragment.elim [] fun f => '#' :: f)

def localhost : Text := "localhost"

/-- What a name in a path of the file system does not hold as it is in a URL. -/
def inNameSet (c : Char) : Bool := inPathSet c || c == '%' || c == '\\'

def ofDirectory (path : Text) : Url :=
  let ended := if path.getLast? == some '/' then path else path ++ "/"
  ⟨"file", [], [], some [], none, percentEncode inNameSet ended, false, none, none⟩

/-- Whether a path ends in a drive letter, which stands for a directory. -/
def endsInDrive (path : Text) : Bool :=
  match path.reverse with
  | mark :: letter :: _ :: _ => (mark == ':' || mark == '|') && letter.isAlpha
  | _ => false

def filePath? (u : Url) : Option Text := do
  guard (!u.isOpaque && u.path.head? == some '/')
  guard (u.host.all fun h => h.isEmpty || h == localhost)
  let path ← utf8Text? (percentDecode u.path)
  return if endsInDrive path then path ++ "/" else path

end Url

end Mediation
