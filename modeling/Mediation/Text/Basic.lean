/-! # Texts

A text is a list of characters, so that every reader and printer of the library
is a function on a list. String constants stand for the list of their characters.
-/

namespace Mediation

/-- A text, character by character. -/
abbrev Text := List Char

instance : Coe String Text := ⟨String.toList⟩

namespace Text

def lower (t : Text) : Text := t.map Char.toLower

@[simp] theorem lower_nil : lower [] = [] := rfl

@[simp] theorem lower_cons (c : Char) (t : Text) : lower (c :: t) = c.toLower :: lower t := rfl

@[simp] theorem lower_append (s t : Text) : lower (s ++ t) = lower s ++ lower t :=
  List.map_append

/-- Whether two texts differ at most in the case of ASCII letters. -/
def sameLetters (s t : Text) : Bool := lower s == lower t

def cutAt (c : Char) (t : Text) : Option (Text × Text) :=
  match t.dropWhile (· != c) with
  | [] => none
  | _ :: rest => some (t.takeWhile (· != c), rest)

def joinWith (separator : Text) (pieces : List Text) : Text := separator.intercalate pieces

@[simp] theorem joinWith_nil (separator : Text) : joinWith separator [] = [] := rfl

end Text

end Mediation
