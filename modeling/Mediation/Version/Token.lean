import Mediation.Text.Basic

/-! # Tokens of a version

A version text is cut at dots and hyphens, and wherever ASCII digits meet other
characters. Each token remembers what separates it from the one before it.
-/

namespace Mediation.Version

inductive Separator
  | start
  | dot
  | hyphen
  | transition
  deriving DecidableEq, Repr

/-- The character of a separator; the beginning and a transition have none. -/
def Separator.text : Separator → Text
  | start => []
  | dot => ['.']
  | hyphen => ['-']
  | transition => []

structure Token where
  separator : Separator
  text : Text
  deriving DecidableEq, Repr

namespace Token

/-- The list with `c` in front of the text of its first token. -/
def prepend (c : Char) : List Token → List Token
  | [] => []
  | t :: ts => ⟨t.separator, c :: t.text⟩ :: ts

/-- Whether a token that holds `c` ends before `rest` because digits meet other characters. -/
def endsBefore (c : Char) : Text → Bool
  | [] => false
  | d :: _ => d != '.' && d != '-' && c.isDigit != d.isDigit

def splitAfter (separator : Separator) : Text → List Token
  | [] => [⟨separator, []⟩]
  | c :: rest =>
    if c = '.' then ⟨separator, []⟩ :: splitAfter .dot rest
    else if c = '-' then ⟨separator, []⟩ :: splitAfter .hyphen rest
    else if endsBefore c rest then ⟨separator, [c]⟩ :: splitAfter .transition rest
    else prepend c (splitAfter separator rest)

/-- The tokens of a text. -/
def split (t : Text) : List Token := splitAfter .start t

def unsplit (ts : List Token) : Text := ts.flatMap fun t => t.separator.text ++ t.text

end Token

end Mediation.Version
