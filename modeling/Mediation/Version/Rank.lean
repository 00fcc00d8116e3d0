import Mediation.Text.Blank
import Mediation.Version.Build
import Mediation.Version.Token

/-! # The order of versions

The rank of a version is a list of leading numbers and a list of qualifiers.
Numbers decide first; qualifiers rank

    alpha < beta < milestone < rc = cr < snapshot < any other word < release < number

where nothing at all counts as a release. Trailing zeros and trailing release
words do not matter, so `1`, `1.0` and `1.0.0-ga` have one rank.
-/

namespace Mediation.Version

/-- One qualifier of a version. -/
inductive Item
  | alpha
  | beta
  | milestone
  | candidate
  | snapshot
  | named (word : Text)
  | release
  | number (n : Nat)
  deriving DecidableEq, Repr

namespace Item

/-- The place of the kinds of qualifiers in their order. -/
def tier : Item → Nat
  | alpha => 0
  | beta => 1
  | milestone => 2
  | candidate => 3
  | snapshot => 4
  | named _ => 5
  | release => 6
  | number _ => 7

/-- Words among themselves by their characters, numbers by size, all else by kind. -/
def compare : Item → Item → Ordering
  | named s, named t => Ord.compare s t
  | number m, number n => Ord.compare m n
  | a, b => Ord.compare a.tier b.tier

def known : List (Text × Item) :=
  [("alpha", alpha), ("beta", beta), ("milestone", milestone), ("rc", candidate),
    ("cr", candidate), ("snapshot", snapshot), ("", release), ("ga", release),
    ("final", release), ("release", release)]

/-- The one-letter qualifiers, which need a digit behind them. -/
def abbreviated : List (Text × Item) := [("a", alpha), ("b", beta), ("m", milestone)]

def ofWord (word : Text) (digitFollows : Bool) : Item :=
  let lowered := word.lower
  match known.lookup lowered with
  | some item => item
  | none =>
    match if digitFollows then abbreviated.lookup lowered else none with
    | some item => item
    | none => named lowered

def ofToken (token : Text) (digitFollows : Bool) : Item :=
  if Text.isNumeric token then number (Text.value token) else ofWord token digitFollows

/-- Qualifiers without weight at the end of a version. -/
def isNoise : Item → Bool
  | release => true
  | number n => n == 0
  | _ => false

end Item

/-- Whether the token after a word starts with a digit that belongs to the word. -/
def digitFollows : List Token → Bool
  | [] => false
  | t :: _ => t.separator == .transition && (t.text.head?.any Char.isDigit)

/-- The numbers at the beginning, with nothing counting as zero, and the tokens after them. -/
def takeNumbers : List Token → List Nat × List Token
  | [] => ([], [])
  | t :: ts =>
    if (t.separator == .start || t.separator == .dot) && t.text.all Char.isDigit then
      let (numbers, rest) := takeNumbers ts
      (Text.value t.text :: numbers, rest)
    else ([], t :: ts)

def itemsOf : List Token → List Item
  | [] => []
  | t :: ts =>
    if t.text.isEmpty then itemsOf ts
    else Item.ofToken t.text (digitFollows ts) :: itemsOf ts

def dropLastWhile {α : Type} (p : α → Bool) (xs : List α) : List α :=
  (xs.reverse.dropWhile p).reverse

/-- What the order of a version depends on. -/
structure Rank where
  numbers : List Nat
  items : List Item
  deriving DecidableEq, Repr

namespace Rank

def ofPlain (t : Text) : Rank :=
  let (numbers, rest) := takeNumbers (Token.split t.trim)
  ⟨dropLastWhile (· == 0) numbers, dropLastWhile Item.isNoise (itemsOf rest)⟩

/-- A build ranks as its base followed by a snapshot, its timestamp and its number. -/
def ofText (t : Text) : Rank :=
  match Build.read? t with
  | some b =>
    let base := ofPlain b.base
    ⟨base.numbers, base.items ++ [.snapshot, Item.ofToken b.day false,
      Item.ofToken b.time false, Item.ofToken b.number false]⟩
  | none => ofPlain t

/-- Compares qualifiers with nothing at all. -/
def compareWithNone : List Item → Ordering
  | [] => .eq
  | x :: xs => (x.compare .release).then (compareWithNone xs)

/-- Compares qualifiers one by one; the shorter list goes on with releases. -/
def compareItems : List Item → List Item → Ordering
  | [], ys => (compareWithNone ys).swap
  | x :: xs, [] => compareWithNone (x :: xs)
  | x :: xs, y :: ys => (x.compare y).then (compareItems xs ys)

def compare (r s : Rank) : Ordering :=
  (Ord.compare r.numbers s.numbers).then (compareItems r.items s.items)

end Rank

def rank (v : Version) : Rank := Rank.ofText v.text

def compare (v w : Version) : Ordering := v.rank.compare w.rank

instance : Ord Version := ⟨Version.compare⟩

/-- Whether two versions are spellings of one version. -/
def same (v w : Version) : Bool := v.rank == w.rank

def precedes (v w : Version) : Bool := v.compare w == .lt

/-- A greatest version of a list, the last one of several equal ones. -/
def lastMax? : List Version → Option Version
  | [] => none
  | v :: vs => some (vs.foldl (fun best w => if w.precedes best then best else w) v)

/-- A least version of a list, the first one of several equal ones. -/
def firstMin? : List Version → Option Version
  | [] => none
  | v :: vs => some (vs.foldl (fun best w => if w.precedes best then w else best) v)

def sort (vs : List Version) : List Version :=
  vs.mergeSort fun v w => !w.precedes v

end Mediation.Version
