import Mediation.Coordinate
import Mediation.Proofs.Text.Pieces

/-! # Coordinates are read from their written form

The parts that a text is read as are not empty and hold no colon, and there is no blank in front of
the first or behind the last of them. Such parts are read again from a text that puts colons between
them. A packaging that was not written is one more such part.
-/

namespace Mediation

variable {t p : Text} {ps : List Text}

/-- Whether parts are those of a text with colons between them. -/
structure AreColonParts (ps : List Text) : Prop where
  ne_nil : ps ≠ []
  nonempty : ∀ p ∈ ps, p ≠ []
  colon : ∀ p ∈ ps, ':' ∉ p
  tight : (Text.joinWith [':'] ps).IsTight

namespace AreColonParts

theorem colonParts_joinWith (h : AreColonParts ps) :
    colonParts (Text.joinWith [':'] ps) = ps := by
  rw [colonParts, h.tight.trim_eq, Text.splitOn_joinWith h.ne_nil h.colon]

theorem of_colonParts (h : colonParts t = ps) (hne : ∀ p ∈ ps, p ≠ []) : AreColonParts ps := by
  subst h
  exact {
    ne_nil := List.splitOn_ne_nil ':' t.trim
    nonempty := hne
    colon p hp := Text.not_mem_of_mem_splitOn hp
    tight := by
      rw [colonParts, Text.joinWith_splitOn]
      exact Text.isTight_trim t }

theorem concat (h : AreColonParts ps) (hne : p ≠ []) (hcolon : ':' ∉ p) (htight : p.IsTight) :
    AreColonParts (ps ++ [p]) where
  ne_nil := by simp
  nonempty := by simpa [or_imp, forall_and] using ⟨h.nonempty, hne⟩
  colon := by simpa [or_imp, forall_and] using ⟨h.colon, hcolon⟩
  tight := by
    rw [Text.joinWith_append _ h.ne_nil (by simp), Text.joinWith_singleton, List.append_assoc]
    exact h.tight.append_cons rfl htight

end AreColonParts

namespace Key

variable {k : Key}

def parts (k : Key) : List Text := [k.group, k.artifact]

theorem text_eq (k : Key) : k.text = Text.joinWith [':'] k.parts := by
  simp [text, parts, Text.joinWith_cons_cons, Text.joinWith_singleton]

theorem read_eq_ok_iff : read t = .ok k ↔ colonParts t = k.parts ∧ ∀ p ∈ k.parts, p ≠ [] := by
  constructor
  · intro h
    rw [read] at h
    split at h
    · rename_i g a hparts
      split at h
      · cases h
      · cases h
        simp_all [parts]
    · cases h
  · rintro ⟨hparts, hne⟩
    simp_all [read, parts]

theorem areColonParts_of_read (h : read t = .ok k) : AreColonParts k.parts := by
  obtain ⟨hparts, hne⟩ := read_eq_ok_iff.mp h
  exact .of_colonParts hparts hne

theorem read_text (h : AreColonParts k.parts) : read k.text = .ok k := by
  rw [read_eq_ok_iff, text_eq, h.colonParts_joinWith]
  exact ⟨rfl, h.nonempty⟩

end Key

namespace Exclusion

variable {e : Exclusion}

def literal (e : Exclusion) : Key := ⟨e.group, e.artifact⟩

theorem read_eq_ok_iff : read t = .ok e ↔ Key.read t = .ok e.literal := by
  obtain ⟨g, a⟩ := e
  simp only [read, Key.read, literal]
  split
  · split <;> simp
  · simp

theorem read_text (h : read t = .ok e) : read e.text = .ok e := by
  rw [read_eq_ok_iff] at h ⊢
  exact Key.read_text (Key.areColonParts_of_read h)

end Exclusion

namespace Coordinate

variable {c : Coordinate}

def parts (c : Coordinate) : List Text :=
  [c.group, c.artifact, c.packaging] ++ c.classifier.toList

theorem text_eq (c : Coordinate) : c.text = Text.joinWith [':'] c.parts := by
  cases hc : c.classifier <;>
    simp [text, parts, hc, Text.joinWith_cons_cons, Text.joinWith_singleton]

theorem ofParts_parts (c : Coordinate) : ofParts c.parts = some c := by
  obtain ⟨g, a, p, classifier⟩ := c
  cases classifier <;> rfl

theorem eq_of_ofParts (h : ofParts ps = some c) :
    ps = c.parts ∨ ∃ g a, ps = [g, a] ∧ c = jar g a := by
  unfold ofParts at h
  split at h
  · cases h
    exact .inr ⟨_, _, rfl, rfl⟩
  · cases h
    exact .inl rfl
  · cases h
    exact .inl rfl
  · cases h

theorem read_eq_ok_iff : read t = .ok c ↔
    ofParts (colonParts t) = some c ∧ ∀ p ∈ colonParts t, p ≠ [] := by
  have hany : (colonParts t).any List.isEmpty = false ↔ ∀ p ∈ colonParts t, p ≠ [] := by
    simp
  rw [read, ← hany]
  cases (colonParts t).any List.isEmpty <;> cases ofParts (colonParts t) <;> simp

theorem isTight_defaultPackaging : Text.IsTight defaultPackaging :=
  .of_ends rfl rfl (by decide) (by decide)

theorem areColonParts_of_read (h : read t = .ok c) : AreColonParts c.parts := by
  obtain ⟨hread, hne⟩ := read_eq_ok_iff.mp h
  have hwritten := AreColonParts.of_colonParts rfl hne
  rcases eq_of_ofParts hread with hparts | ⟨g, a, hparts, rfl⟩
  · exact hparts ▸ hwritten
  · rw [hparts] at hwritten
    exact hwritten.concat (p := defaultPackaging) (by decide) (by decide) isTight_defaultPackaging

theorem read_text (h : AreColonParts c.parts) : read c.text = .ok c := by
  rw [read_eq_ok_iff, text_eq, h.colonParts_joinWith]
  exact ⟨c.ofParts_parts, h.nonempty⟩

end Coordinate

end Mediation
