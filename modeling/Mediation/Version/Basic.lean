import Mediation.Text.Basic

/-! # Versions

A version is any text. Two texts name a moving target instead of a release:
`LATEST` and `RELEASE`. A text ending in `SNAPSHOT` names a snapshot whose build
has not been chosen yet.
-/

namespace Mediation

structure Version where
  text : Text
  deriving DecidableEq, Repr, Inhabited

namespace Version

/-- The text that stands for the newest version known. -/
def latestName : Text := "LATEST"

/-- The text that stands for the newest version that is not a snapshot. -/
def releaseName : Text := "RELEASE"

/-- The mark at the end of a snapshot whose build is still open. -/
def snapshotMark : Text := "SNAPSHOT"

/-- The versions that only a repository can make concrete by name. -/
def isSymbolic (v : Version) : Bool := v.text == latestName || v.text == releaseName

/-- Whether the text ends in the snapshot mark, in any ASCII case. -/
def isOpenSnapshot (v : Version) : Bool := snapshotMark.lower.isSuffixOf v.text.lower

def openStem (v : Version) : Text := v.text.take (v.text.length - snapshotMark.length)

end Version

end Mediation
