import Mediation.Text.Decimal

/-! # Percent-encoding

The parts of a URL write some characters as the bytes of their UTF-8 form, each
as `%` and two hexadecimal digits. Each part has its own set of such characters.
-/

namespace Mediation.Url

def upperHex (n : Nat) : Char := (Nat.digitChar n).toUpper

def percentByte (b : UInt8) : Text := ['%', upperHex (b.toNat / 16), upperHex (b.toNat % 16)]

def percentEncode (set : Char → Bool) (t : Text) : Text :=
  t.flatMap fun c => if set c then (String.utf8EncodeChar c).flatMap percentByte else [c]

def isControl (c : Char) : Bool := c.toNat < 0x20 || 0x7F ≤ c.toNat

def inFragmentSet (c : Char) : Bool := isControl c || " \"<>`".contains c

def inPathSet (c : Char) : Bool := inFragmentSet c || "#?\x7b\x7d".contains c

/-- What a user name or a password does not hold as it is. -/
def inUserSet (c : Char) : Bool := inPathSet c || "/:;=@[\\]^|".contains c

/-- What a query does not hold as it is; special schemes also encode the apostrophe. -/
def inQuerySet (special : Bool) (c : Char) : Bool :=
  isControl c || " \"#<>".contains c || (special && c == '\'')

def hexValue? (c : Char) : Option Nat :=
  let n := c.toNat
  if c.isDigit then some (n - 0x30)
  else if 0x61 ≤ n && n ≤ 0x66 then some (n - 0x61 + 10)
  else if 0x41 ≤ n && n ≤ 0x46 then some (n - 0x41 + 10)
  else none

/-- The bytes of a text in which `%` and two digits stand for a byte. -/
def percentDecode : Text → List UInt8
  | [] => []
  | '%' :: a :: b :: rest =>
    match hexValue? a, hexValue? b with
    | some high, some low => UInt8.ofNat (high * 16 + low) :: percentDecode rest
    | _, _ => 0x25 :: percentDecode (a :: b :: rest)
  | c :: rest => String.utf8EncodeChar c ++ percentDecode rest

def utf8Text? (bytes : List UInt8) : Option Text :=
  (String.fromUTF8? ⟨bytes.toArray⟩).map String.toList

end Mediation.Url
