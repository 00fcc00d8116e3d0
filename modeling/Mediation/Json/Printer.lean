import Mediation.Json.Basic

/-! # Printing JSON

Two blanks of indentation for every level, one member or element a line, and
nothing between the brackets of an empty array or object.
-/

namespace Mediation.Json

def hexDigit (n : Nat) : Char := Nat.digitChar n

def escape (c : Char) : Text :=
  if c == '"' then ['\\', '"']
  else if c == '\\' then ['\\', '\\']
  else if c == '\n' then ['\\', 'n']
  else if c == '\r' then ['\\', 'r']
  else if c == '\t' then ['\\', 't']
  else if c == '\x08' then ['\\', 'b']
  else if c == '\x0c' then ['\\', 'f']
  else if c.toNat < 0x20 then
    ['\\', 'u', '0', '0', hexDigit (c.toNat / 16), hexDigit (c.toNat % 16)]
  else [c]

def quoted (t : Text) : Text := '"' :: t.flatMap escape ++ ['"']

def lineAt (depth : Nat) : Text := '\n' :: List.replicate (2 * depth) ' '

mutual

/-- The value whose first line is already indented, at a depth of nesting. -/
def prettyAt (depth : Nat) : Json → Text
  | null => "null"
  | bool b => if b then "true" else "false"
  | number s => s
  | string t => quoted t
  | unpaired => "\"\\ud800\""
  | array [] => ['[', ']']
  | array (x :: xs) =>
    '[' :: lineAt (depth + 1) ++ prettyAt (depth + 1) x ++ prettyElements (depth + 1) xs ++
      lineAt depth ++ [']']
  | object [] => ['\x7b', '\x7d']
  | object ((name, x) :: ms) =>
    '\x7b' :: lineAt (depth + 1) ++ quoted name ++ ": " ++ prettyAt (depth + 1) x ++
      prettyMembers (depth + 1) ms ++ lineAt depth ++ ['\x7d']

def prettyElements (depth : Nat) : List Json → Text
  | [] => []
  | x :: xs => ',' :: lineAt depth ++ prettyAt depth x ++ prettyElements depth xs

def prettyMembers (depth : Nat) : List (Text × Json) → Text
  | [] => []
  | (name, x) :: ms =>
    ',' :: lineAt depth ++ quoted name ++ ": " ++ prettyAt depth x ++ prettyMembers depth ms

end

def pretty (j : Json) : Text := prettyAt 0 j

end Mediation.Json
