import Mathlib.Logic.Basic
import Mediation.Metadata.Envelope

/-! # Merging an envelope again

What an envelope was merged with once adds nothing the second time. Merging an envelope with itself
is different: whatever it records stays, but an empty stamp goes, and that counts as a change.
-/

namespace Mediation

namespace Versioning

variable {vs ws : List Text}

theorem mem_unite {v : Text} : v ∈ unite vs ws ↔ v ∈ vs ∨ v ∈ ws := by
  induction ws generalizing vs with
  | nil => simp [unite]
  | cons w ws ih =>
    rw [unite, List.foldl_cons, ← unite, ih]
    split <;> grind

theorem unite_of_subset (h : ws ⊆ vs) : unite vs ws = vs := by
  induction ws with
  | nil => rfl
  | cons w ws ih =>
    obtain ⟨hw, hws⟩ := List.cons_subset.mp h
    rw [unite, List.foldl_cons, if_pos (List.contains_iff_mem.mpr hw)]
    exact ih hws

theorem unite_unite (vs ws : List Text) : unite (unite vs ws) ws = unite vs ws :=
  unite_of_subset fun _ hw => mem_unite.mpr (.inr hw)

@[simp] theorem stamp?_stamp? (t : Option Text) : stamp? (stamp? t) = stamp? t := by
  simp [stamp?, Option.filter_filter]

theorem stamp?_or (t u : Option Text) :
    stamp? ((stamp? t).or (stamp? u)) = (stamp? t).or (stamp? u) := by
  cases h : stamp? t with
  | none => simp
  | some t' => rw [Option.some_or, ← h, stamp?_stamp?]

theorem isCurrent_self (t : Option Text) : isCurrent t t = true := by
  cases t with
  | none => rfl
  | some t => simp [isCurrent, Std.ReflCmp.compare_self]

theorem stamp?_eq_self_iff {t : Option Text} : stamp? t = t ↔ t ≠ some [] := by
  cases t with
  | none => simp [stamp?]
  | some t => cases t <;> simp [stamp?, Option.filter]

/-- A merger that is current takes all but the versions from what comes in, if it is recorded
there. -/
theorem merge_of_current {mine theirs : Versioning}
    (h : isCurrent (stamp? mine.lastUpdated)
      ((stamp? theirs.lastUpdated).or (stamp? mine.lastUpdated)) = true) :
    mine.merge theirs = ⟨theirs.latest.or mine.latest, theirs.release.or mine.release,
      unite mine.versions theirs.versions,
      (stamp? theirs.lastUpdated).or (stamp? mine.lastUpdated),
      theirs.snapshot.or mine.snapshot⟩ := by
  rw [merge, if_pos h]

theorem merge_of_not_current {mine theirs : Versioning}
    (h : ¬ isCurrent (stamp? mine.lastUpdated)
      ((stamp? theirs.lastUpdated).or (stamp? mine.lastUpdated)) = true) :
    mine.merge theirs = { mine with versions := unite mine.versions theirs.versions } := by
  rw [merge, if_neg h]

/-- The second merger takes the branch of the first, since a stamp that was taken over is the
incoming one again. -/
theorem merge_merge (mine theirs : Versioning) :
    (mine.merge theirs).merge theirs = mine.merge theirs := by
  by_cases h : isCurrent (stamp? mine.lastUpdated)
    ((stamp? theirs.lastUpdated).or (stamp? mine.lastUpdated)) = true
  · rw [merge_of_current h, merge_of_current]
    · simp [unite_unite, stamp?_or, ← Option.or_assoc]
    · simp [stamp?_or, ← Option.or_assoc, isCurrent_self]
  · rw [merge_of_not_current h, merge_of_not_current (by exact h), unite_unite]

theorem merge_same (m : Versioning) :
    m.merge m = { m with lastUpdated := stamp? m.lastUpdated } := by
  rw [merge_of_current (by simp [isCurrent_self])]
  simp [unite_of_subset (List.Subset.refl m.versions)]

end Versioning

namespace Envelope

theorem orIfEmpty_orIfEmpty (t u : Text) : orIfEmpty (orIfEmpty t u) u = orIfEmpty t u := by
  unfold orIfEmpty
  split <;> simp_all

theorem changesWith_iff {mine theirs : Envelope} :
    mine.changesWith theirs = true ↔ mine.merge theirs ≠ mine := bne_iff_ne

/-- Whatever two envelopes record, merging the second one into the first once more changes
nothing. -/
theorem merge_again (a b : Envelope) :
    (a.merge b).merge b = a.merge b ∧ (a.merge b).changesWith b = false := by
  have hmerge : (a.merge b).merge b = a.merge b := by
    simp [merge, orIfEmpty_orIfEmpty, Versioning.merge_merge, Option.or_assoc]
  refine ⟨hmerge, ?_⟩
  rw [← Bool.not_eq_true, changesWith_iff]
  exact not_not_intro hmerge

/-- An envelope that is merged with itself stays as it is unless its stamp is an empty text, which
becomes no stamp and is reported as a change. -/
theorem merge_with_itself (m : Envelope) :
    m.merge m = { m with versioning :=
      { m.versioning with lastUpdated := Versioning.stamp? m.versioning.lastUpdated } } ∧
      (m.changesWith m = true ↔ m.versioning.lastUpdated = some []) := by
  have hmerge : m.merge m = { m with versioning :=
      { m.versioning with lastUpdated := Versioning.stamp? m.versioning.lastUpdated } } := by
    simp [merge, orIfEmpty, Versioning.merge_same]
  refine ⟨hmerge, ?_⟩
  rw [changesWith_iff, hmerge, ← not_iff_not, not_not, ← Ne.eq_1, ← Versioning.stamp?_eq_self_iff]
  exact ⟨congrArg fun e : Envelope => e.versioning.lastUpdated, fun h => by rw [h]⟩

/-- An empty stamp is lost in the merger of an envelope with itself. -/
example : changesWith ⟨"g", "a", none, none, none, [], some [], none⟩
    ⟨"g", "a", none, none, none, [], some [], none⟩ = true := by decide

end Envelope

end Mediation
