import Mediation.Url.Basic
import Mediation.Url.Host

/-! # Reading URLs

Reads an absolute URL into normal form: scheme and host in lower case, no default
port, a path without dot segments, and percent-encoding where a part needs it.
-/

namespace Mediation.Url

/-- The text without blanks and control characters around it and without line breaks. -/
def strip (t : Text) : Text :=
  let isEdge (c : Char) : Bool := c.toNat ≤ 0x20
  let trimmed := ((t.dropWhile isEdge).reverse.dropWhile isEdge).reverse
  trimmed.filter fun c => !(c == '\t' || c == '\n' || c == '\r')

def isSchemeChar (c : Char) : Bool := c.isAlphanum || c == '+' || c == '-' || c == '.'

/-- The scheme in front of the first colon and the text behind it. -/
def scheme? (t : Text) : Option (Text × Text) := do
  guard (t.head?.any Char.isAlpha)
  match t.dropWhile isSchemeChar with
  | ':' :: rest => some (Text.lower (t.takeWhile isSchemeChar), rest)
  | _ => none

def isSlash (special : Bool) (c : Char) : Bool := c == '/' || (special && c == '\\')

def endsPath (c : Char) : Bool := c == '?' || c == '#'

def segments (special : Bool) (t : Text) : List Text :=
  (t.map fun c => if isSlash special c then '/' else c).splitOn '/'

def plainDots (t : Text) : Text :=
  match Text.lower t with
  | ['%', '2', 'e'] => "."
  | ['.', '%', '2', 'e'] => ".."
  | ['%', '2', 'e', '.'] => ".."
  | ['%', '2', 'e', '%', '2', 'e'] => ".."
  | s => s

def isDrive : Text → Bool
  | [letter, mark] => letter.isAlpha && (mark == ':' || mark == '|')
  | _ => false

/-- The segments without the last one; a drive letter of a file stays. -/
def shorten (isFile : Bool) (done : List Text) : List Text :=
  match done with
  | [s] => if isFile && isDrive s then [s] else []
  | _ => done.dropLast

/-- Appends a segment; the first one of a file may be a drive letter with a bar for a colon. -/
def appendSegment (isFile : Bool) (done : List Text) (segment : Text) : List Text :=
  if isFile && done.isEmpty && isDrive segment then [segment.take 1 ++ ":"]
  else done ++ [percentEncode inPathSet segment]

def resolveDots (isFile : Bool) (done : List Text) : List Text → List Text
  | [] => done
  | s :: rest =>
    let next :=
      if plainDots s = "..".toList then
        let up := shorten isFile done
        if rest.isEmpty then up ++ [[]] else up
      else if plainDots s = ".".toList then
        if rest.isEmpty then done ++ [[]] else done
      else appendSegment isFile done s
    resolveDots isFile next rest

def pathOf (special isFile : Bool) (t : Text) : Text :=
  (resolveDots isFile [] (segments special t)).flatMap ('/' :: ·)

/-- The path at the front of a text, which may begin with a slash. -/
def hierarchicalPath (special isFile : Bool) (t : Text) : Text :=
  match t with
  | c :: rest => if isSlash special c then pathOf special isFile rest else pathOf special isFile t
  | [] => if special then "/" else []

def cutAtLastAt (t : Text) : Option (Text × Text) :=
  match t.reverse.dropWhile (· != '@') with
  | [] => none
  | _ :: before => some (before.reverse, (t.reverse.takeWhile (· != '@')).reverse)

/-- The text before the colon of a port and the text behind it; a colon in brackets is none. -/
def cutAtPort (inBrackets : Bool) : Text → Text × Option Text
  | [] => ([], none)
  | c :: rest =>
    if c == ':' && !inBrackets then ([], some rest)
    else
      let inside := if c == '[' then true else if c == ']' then false else inBrackets
      let (host, port) := cutAtPort inside rest
      (c :: host, port)

/-- Reads a port of 16 bits; no digits mean no port, and neither does the default one. -/
def port? (default : Option Nat) (t : Text) : Option (Option Nat) :=
  if t.isEmpty then some none
  else if Text.isNumeric t && Text.value t < 65536 then
    some (if default == some (Text.value t) then none else some (Text.value t))
  else none

def authority? (scheme t : Text) : Option (Text × Text × Text × Option Nat) := do
  let special := isSpecial scheme
  let (login, address) := (cutAtLastAt t).getD ([], t)
  let (user, password) := (Text.cutAt ':' login).getD (login, [])
  let (name, behind) := cutAtPort false address
  guard (!(name.isEmpty && (special || !login.isEmpty || behind.isSome)))
  let host ← if special then specialHost? name else opaqueHost? name
  let port ← port? (defaultPort? scheme) (behind.getD [])
  return (percentEncode inUserSet user, percentEncode inUserSet password, host, port)

def fileHost? (t : Text) : Option Text :=
  if t.isEmpty then some []
  else (specialHost? t).map fun h => if h == localhost then [] else h

def tail (special : Bool) (t : Text) : Option Text × Option Text :=
  let fragment (f : Text) : Text := percentEncode inFragmentSet f
  match t with
  | '#' :: f => (none, some (fragment f))
  | '?' :: rest =>
    let query := percentEncode (inQuerySet special) (rest.takeWhile (· != '#'))
    match rest.dropWhile (· != '#') with
    | _ :: f => (some query, some (fragment f))
    | [] => (some query, none)
  | _ => (none, none)

/-- A URL of the scheme `file`, from what is between its scheme and its query. -/
def file? (body : Text) : Option Url := do
  let rest := match body with
    | a :: b :: rest => if isSlash true a && isSlash true b then some rest else none
    | _ => none
  let (host, path) ← match rest with
    | none => some ([], body)
    | some rest => do
      let name := rest.takeWhile (!isSlash true ·)
      if isDrive name then some ([], rest)
      else (fileHost? name).map fun h => (h, rest.dropWhile (!isSlash true ·))
  return ⟨"file", [], [], some host, none, hierarchicalPath true true path, false, none, none⟩

/-- A URL with a host, from what is behind the two slashes and before its query. -/
def hosted? (scheme body : Text) : Option Url := do
  let special := isSpecial scheme
  let (user, password, host, port) ← authority? scheme (body.takeWhile (!isSlash special ·))
  let path := hierarchicalPath special false (body.dropWhile (!isSlash special ·))
  return ⟨scheme, user, password, some host, port, path, false, none, none⟩

/-- A URL without query and fragment, from what is between its scheme and its query. -/
def body? (scheme body : Text) : Option Url :=
  if scheme = "file".toList then file? body
  else if isSpecial scheme then hosted? scheme (body.dropWhile (isSlash true))
  else
    match body with
    | '/' :: '/' :: rest => hosted? scheme rest
    | '/' :: rest =>
      some ⟨scheme, [], [], none, none, pathOf false false rest, false, none, none⟩
    | _ => some ⟨scheme, [], [], none, none, percentEncode isControl body, true, none, none⟩

def read? (t : Text) : Option Url := do
  let (scheme, rest) ← scheme? (strip t)
  let u ← body? scheme (rest.takeWhile (!endsPath ·))
  let (query, fragment) := tail (isSpecial scheme) (rest.dropWhile (!endsPath ·))
  return { u with query := query, fragment := fragment }

end Mediation.Url
