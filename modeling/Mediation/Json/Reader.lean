import Mediation.Json.Basic

/-! # Reading JSON

A strict reader: no comments, no trailing commas, nothing after the value. A
string may hold no control character. A string with an escaped surrogate outside
a pair stands for no text, and no member has such a name.
-/

namespace Mediation.Json

def isBlank (c : Char) : Bool := c == ' ' || c == '\t' || c == '\n' || c == '\r'

def skip (t : Text) : Text := t.dropWhile isBlank

/-- What a string is written with: characters, and UTF-16 units as escapes. -/
inductive Piece
  | char (c : Char)
  | unit (n : Nat)
  deriving DecidableEq, Repr

def hexValue? (c : Char) : Option Nat :=
  let n := c.toNat
  if c.isDigit then some (n - 0x30)
  else if 0x61 ≤ n && n ≤ 0x66 then some (n - 0x61 + 10)
  else if 0x41 ≤ n && n ≤ 0x46 then some (n - 0x41 + 10)
  else none

def unit? (a b c d : Char) : Option Nat := do
  return (((← hexValue? a) * 16 + (← hexValue? b)) * 16 + (← hexValue? c)) * 16 + (← hexValue? d)

def escaped? : Char → Option Char
  | '"' => some '"'
  | '\\' => some '\\'
  | '/' => some '/'
  | 'b' => some '\x08'
  | 'f' => some '\x0c'
  | 'n' => some '\n'
  | 'r' => some '\r'
  | 't' => some '\t'
  | _ => none

/-- The pieces up to the closing quote and the text behind it. -/
def pieces? : Text → Option (List Piece × Text)
  | [] => none
  | '"' :: rest => some ([], rest)
  | '\\' :: 'u' :: a :: b :: c :: d :: rest => do
    let n ← unit? a b c d
    let (ps, left) ← pieces? rest
    return (.unit n :: ps, left)
  | '\\' :: e :: rest => do
    let c ← escaped? e
    let (ps, left) ← pieces? rest
    return (.char c :: ps, left)
  | c :: rest => do
    guard (0x20 ≤ c.toNat)
    let (ps, left) ← pieces? rest
    return (.char c :: ps, left)

def isHighSurrogate (n : Nat) : Bool := 0xD800 ≤ n && n < 0xDC00

def isLowSurrogate (n : Nat) : Bool := 0xDC00 ≤ n && n < 0xE000

def join? : List Piece → Option Text
  | [] => some []
  | .char c :: ps => (join? ps).map (c :: ·)
  | .unit high :: .unit low :: ps =>
    if isHighSurrogate high then do
      guard (isLowSurrogate low)
      return Char.ofNat (0x10000 + (high - 0xD800) * 0x400 + (low - 0xDC00)) :: (← join? ps)
    else do
      guard (!isLowSurrogate high)
      return Char.ofNat high :: (← join? (.unit low :: ps))
  | .unit n :: ps => do
    guard (!isHighSurrogate n && !isLowSurrogate n)
    return Char.ofNat n :: (← join? ps)

def ofPieces (ps : List Piece) : Json :=
  match join? ps with
  | some t => string t
  | none => unpaired

/-- The object with given members, each of whose names has to be a text. -/
def ofMembers (ms : List (Option Text × Json)) : Json :=
  match ms.mapM fun (name, x) => name.map (·, x) with
  | some ms => object ms
  | none => unpaired

def isNumberChar (c : Char) : Bool :=
  c.isDigit || c == '-' || c == '+' || c == '.' || c == 'e' || c == 'E'

def isExponent : Text → Bool
  | [] => true
  | e :: '+' :: ds => (e == 'e' || e == 'E') && Text.isNumeric ds
  | e :: '-' :: ds => (e == 'e' || e == 'E') && Text.isNumeric ds
  | e :: ds => (e == 'e' || e == 'E') && Text.isNumeric ds

/-- An optional fraction with at least one digit, and an optional exponent. -/
def isFraction : Text → Bool
  | '.' :: t => !(t.takeWhile Char.isDigit).isEmpty && isExponent (t.dropWhile Char.isDigit)
  | t => isExponent t

def isNumber (t : Text) : Bool :=
  let body := if t.head? == some '-' then t.drop 1 else t
  match body with
  | '0' :: rest => isFraction rest
  | _ =>
    !(body.takeWhile Char.isDigit).isEmpty && isFraction (body.dropWhile Char.isDigit)

def number? (t : Text) : Option (Json × Text) :=
  let spelling := t.takeWhile isNumberChar
  if isNumber spelling then some (number spelling, t.dropWhile isNumberChar) else none

mutual

/-- The value at the front of a text, nested less deep than `fuel`, and the text behind it. -/
def value? (fuel : Nat) (t : Text) : Option (Json × Text) :=
  match fuel with
  | 0 => none
  | fuel + 1 =>
    match skip t with
    | 'n' :: 'u' :: 'l' :: 'l' :: rest => some (null, rest)
    | 't' :: 'r' :: 'u' :: 'e' :: rest => some (bool true, rest)
    | 'f' :: 'a' :: 'l' :: 's' :: 'e' :: rest => some (bool false, rest)
    | '"' :: rest => do
      let (ps, left) ← pieces? rest
      return (ofPieces ps, left)
    | '[' :: rest =>
      match skip rest with
      | ']' :: left => some (array [], left)
      | _ => do
        let (xs, left) ← elements? fuel rest
        return (array xs, left)
    | '{' :: rest =>
      match skip rest with
      | '}' :: left => some (object [], left)
      | _ => do
        let (ms, left) ← members? fuel rest
        return (ofMembers ms, left)
    | rest => number? rest

/-- One or more elements with commas between them, up to the closing bracket. -/
def elements? (fuel : Nat) (t : Text) : Option (List Json × Text) :=
  match fuel with
  | 0 => none
  | fuel + 1 => do
    let (x, rest) ← value? fuel t
    match skip rest with
    | ',' :: more => do
      let (xs, left) ← elements? fuel more
      return (x :: xs, left)
    | ']' :: left => return ([x], left)
    | _ => none

/-- One or more members with commas between them, up to the closing brace. -/
def members? (fuel : Nat) (t : Text) : Option (List (Option Text × Json) × Text) :=
  match fuel with
  | 0 => none
  | fuel + 1 =>
    match skip t with
    | '"' :: rest => do
      let (name, behind) ← pieces? rest
      match skip behind with
      | ':' :: rest => do
        let (x, rest) ← value? fuel rest
        match skip rest with
        | ',' :: more => do
          let (ms, left) ← members? fuel more
          return ((join? name, x) :: ms, left)
        | '}' :: left => return ([(join? name, x)], left)
        | _ => none
      | _ => none
    | _ => none

end

/-- The value that a text is, with nothing but blanks around it. -/
def read? (t : Text) : Option Json := do
  let (j, rest) ← value? (2 * t.length + 2) t
  guard (skip rest).isEmpty
  return j

end Mediation.Json
