import Mediation.Url.Percent
import Mediation.Url.Punycode

/-! # Hosts

The host of a URL: a domain name in lower case, an IPv4 address in dotted form,
an IPv6 address in its shortest form, or an opaque text.
-/

namespace Mediation.Url

/-- The number of a text of digits below a base up to sixteen. -/
def inBase? (base : Nat) (t : Text) : Option Nat :=
  t.foldl (fun acc c => do
    let n ← acc
    let d ← hexValue? c
    guard (d < base)
    return n * base + d) (some 0)

/-- One number of an IPv4 address: decimal, octal after a zero, hexadecimal after `0x`. -/
def ipv4Number? : Text → Option Nat
  | [] => none
  | '0' :: 'x' :: t => inBase? 16 t
  | '0' :: 'X' :: t => inBase? 16 t
  | '0' :: c :: t => inBase? 8 (c :: t)
  | t => inBase? 10 t

/-- The labels of a host, without an empty one at the end. -/
def labels (t : Text) : List Text :=
  let parts := t.splitOn '.'
  if 1 < parts.length && parts.getLast? == some [] then parts.dropLast else parts

def endsInNumber (t : Text) : Bool :=
  match (labels t).getLast? with
  | none => false
  | some last => Text.isNumeric last || (ipv4Number? last).isSome

/-- The address of up to three bytes and a last number that fills the rest. -/
def ipv4Of? : Nat → List Nat → Option Nat
  | _, [] => none
  | room, [last] => if last < 256 ^ room then some last else none
  | room, n :: ns => do
    guard (n < 256)
    return n * 256 ^ (room - 1) + (← ipv4Of? (room - 1) ns)

def dotted (address : Nat) : Text :=
  Text.joinWith "." ([16777216, 65536, 256, 1].map fun unit => Text.ofNat (address / unit % 256))

def ipv4? (t : Text) : Option Text := do
  let parts := labels t
  guard (parts.length ≤ 4)
  let numbers ← parts.mapM ipv4Number?
  return dotted (← ipv4Of? 4 numbers)

def ipv6Group? (t : Text) : Option Nat := do
  guard (!t.isEmpty && t.length ≤ 4)
  inBase? 16 t

def ipv6Byte? (t : Text) : Option Nat := do
  guard (Text.isNumeric t && (t.length == 1 || t.head? != some '0') && Text.value t < 256)
  return Text.value t

/-- The groups between colons; the last may be an IPv4 address, which makes two groups. -/
def ipv6Groups? : List Text → Option (List Nat)
  | [] => some []
  | [t] =>
    if t.contains '.' then do
      let bytes ← (t.splitOn '.').mapM ipv6Byte?
      match bytes with
      | [a, b, c, d] => some [a * 256 + b, c * 256 + d]
      | _ => none
    else do return [← ipv6Group? t]
  | t :: ts => do return (← ipv6Group? t) :: (← ipv6Groups? ts)

def ipv6Side? (t : Text) : Option (List Nat) :=
  if t.isEmpty then some [] else ipv6Groups? (t.splitOn ':')

def cutAtGap : Text → Option (Text × Text)
  | ':' :: ':' :: rest => some ([], rest)
  | c :: rest => (cutAtGap rest).map fun (a, b) => (c :: a, b)
  | [] => none

/-- The eight groups of an IPv6 address, where `::` stands for groups of zero. -/
def ipv6? (t : Text) : Option (List Nat) := do
  match cutAtGap t with
  | none =>
    let groups ← ipv6Side? t
    guard (groups.length == 8)
    return groups
  | some (before, after) =>
    let first ← ipv6Side? before
    let last ← ipv6Side? after
    guard (first.length + last.length ≤ 7 && !before.contains '.')
    return first ++ List.replicate (8 - first.length - last.length) 0 ++ last

def zerosAtFront (groups : List Nat) : Nat := (groups.takeWhile (· == 0)).length

/-- Where the first of the longest runs of at least two zeros begins, and its length. -/
def longestGap : Nat → List Nat → Nat × Nat
  | _, [] => (0, 0)
  | i, g :: gs =>
    let here := zerosAtFront (g :: gs)
    let later := longestGap (i + 1) gs
    if 2 ≤ here && later.2 ≤ here then (i, here) else later

def colonText (groups : List Nat) : Text :=
  Text.joinWith ":" (groups.map (Nat.toDigits 16))

def ipv6Text (groups : List Nat) : Text :=
  let (start, length) := longestGap 0 groups
  let body :=
    if length < 2 then colonText groups
    else colonText (groups.take start) ++ "::" ++ colonText (groups.drop (start + length))
  '[' :: body ++ "]"

def isForbidden (c : Char) : Bool :=
  c.toNat ≤ 0x20 || c.toNat == 0x7F || "#/:<>?@[\\]^|%".contains c

def isForbiddenOpaque (c : Char) : Bool :=
  "\x00\t\n\r #/:<>?@[\\]^|".contains c

/-- A character of a name in lower case, with the dots and the width of ASCII. -/
def foldName (c : Char) : Char :=
  let n := c.toNat
  if n == 0x3002 || n == 0xFF0E || n == 0xFF61 then '.'
  else if 0xFF01 ≤ n && n ≤ 0xFF5E then (Char.ofNat (n - 0xFF01 + 0x21)).toLower
  else if (0xC0 ≤ n && n ≤ 0xDE && n != 0xD7) || (0x391 ≤ n && n ≤ 0x3A9) ||
      (0x410 ≤ n && n ≤ 0x42F) then Char.ofNat (n + 0x20)
  else if 0x400 ≤ n && n ≤ 0x40F then Char.ofNat (n + 0x50)
  else c.toLower

def asciiLabel (t : Text) : Text :=
  if t.all (·.toNat < 0x80) then t else "xn--" ++ Punycode.encode t

def specialHost? (t : Text) : Option Text :=
  match t with
  | '[' :: rest => do
    guard (rest.getLast? == some ']')
    return ipv6Text (← ipv6? rest.dropLast)
  | _ => do
    let decoded ← utf8Text? (percentDecode t)
    let name := Text.joinWith "." (((decoded.map foldName).splitOn '.').map asciiLabel)
    guard (!name.isEmpty && !name.any isForbidden)
    if endsInNumber name then ipv4? name else return name

def opaqueHost? (t : Text) : Option Text :=
  match t with
  | '[' :: rest => do
    guard (rest.getLast? == some ']')
    return ipv6Text (← ipv6? rest.dropLast)
  | _ => if t.any isForbiddenOpaque then none else some (percentEncode isControl t)

end Mediation.Url
