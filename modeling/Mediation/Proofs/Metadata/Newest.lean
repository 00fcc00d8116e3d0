import Mathlib.Data.List.Nodup
import Mathlib.Data.List.Induction
import Mediation.Metadata.Envelope

/-! # The newest envelope prevails

Envelopes of one key are merged one after the other. As long as each of them is stamped at a time of
its own and records all that is to be decided, the order does not matter for what is current: the
merger is the newest envelope, but for its versions. These are the versions of all envelopes, in the
order in which they were seen first.
-/

namespace Mediation

namespace Versioning

theorem nodup_unite {mine : List Text} (h : mine.Nodup) (theirs : List Text) :
    (unite mine theirs).Nodup := by
  induction theirs generalizing mine with
  | nil => exact h
  | cons v theirs ih =>
    rw [unite, List.foldl_cons]
    apply ih
    split
    · exact h
    · rename_i hv
      rw [List.contains_iff_mem] at hv
      refine List.nodup_append.mpr ⟨h, List.nodup_singleton v, ?_⟩
      rintro w hw _ hv' rfl
      exact hv (List.mem_singleton.mp hv' ▸ hw)

theorem unite_eraseDups (vs ws : List Text) : unite vs.eraseDups ws = (vs ++ ws).eraseDups := by
  induction ws generalizing vs with
  | nil => simp [unite]
  | cons w ws ih =>
    have hw : (vs ++ [w]).eraseDups =
        if vs.eraseDups.contains w then vs.eraseDups else vs.eraseDups ++ [w] := by
      simp only [List.eraseDups_append, List.contains_iff_mem, List.mem_eraseDups]
      split <;> rename_i hmem <;> simp [List.removeAll, hmem, List.eraseDups_cons]
    rw [List.append_cons, ← ih, unite, List.foldl_cons, ← hw, unite]

end Versioning

namespace Envelope

variable {key : MetadataKey} {l l' : List Envelope} {e mine theirs : Envelope} {vs : List Text}

/-- When an envelope was updated, where no stamp is the same as an empty one. -/
def stamp (e : Envelope) : Text := e.versioning.lastUpdated.getD []

def withVersions (e : Envelope) (vs : List Text) : Envelope :=
  { e with versioning := { e.versioning with versions := vs } }

@[simp] theorem key_withVersions : (e.withVersions vs).key = e.key := rfl

@[simp] theorem stamp_withVersions : (e.withVersions vs).stamp = e.stamp := rfl

@[simp] theorem key_forKey : (forKey key).key = key := rfl

@[simp] theorem stamp_forKey : (forKey key).stamp = [] := rfl

/-- Whether an envelope records all that the newest one decides, and when it was updated. -/
structure IsComplete (e : Envelope) : Prop where
  stamp : e.stamp ≠ []
  latest : e.versioning.latest.isSome
  release : e.versioning.release.isSome
  snapshot : e.versioning.snapshot.isSome

theorem stamp?_eq (e : Envelope) : Versioning.stamp? e.versioning.lastUpdated =
    if e.stamp = [] then none else some e.stamp := by
  cases h : e.versioning.lastUpdated with
  | none => simp [Versioning.stamp?, stamp, h]
  | some t => by_cases ht : t = [] <;> simp [Versioning.stamp?, Option.filter, stamp, h, ht]

theorem lastUpdated_eq (h : e.stamp ≠ []) : e.versioning.lastUpdated = some e.stamp := by
  cases hu : e.versioning.lastUpdated with
  | none => simp [stamp, hu] at h
  | some t => simp [stamp, hu]

theorem compare_nil {t : Text} (h : t ≠ []) : compare [] t = .lt := by
  cases t with
  | nil => contradiction
  | cons c t => rfl

theorem merge_eq (hkey : mine.key = theirs.key) :
    mine.merge theirs = { theirs with versioning := mine.versioning.merge theirs.versioning } := by
  obtain ⟨group, artifact, version, versioning⟩ := mine
  obtain ⟨rfl, rfl, rfl⟩ := MetadataKey.mk.inj hkey
  simp [merge, orIfEmpty]

theorem merge_of_newer (hkey : mine.key = theirs.key) (h : theirs.IsComplete)
    (hlt : compare mine.stamp theirs.stamp = .lt) :
    mine.merge theirs = theirs.withVersions
      (Versioning.unite mine.versioning.versions theirs.versioning.versions) := by
  have hcurrent : Versioning.isCurrent (Versioning.stamp? mine.versioning.lastUpdated)
      (some theirs.stamp) = true := by
    rw [stamp?_eq]
    split
    · rfl
    · have hgt : compare theirs.stamp mine.stamp = .gt := Std.OrientedCmp.gt_of_lt hlt
      simp [Versioning.isCurrent, hgt]
  obtain ⟨latest, hlatest⟩ := Option.isSome_iff_exists.mp h.latest
  obtain ⟨release, hrelease⟩ := Option.isSome_iff_exists.mp h.release
  obtain ⟨snapshot, hsnapshot⟩ := Option.isSome_iff_exists.mp h.snapshot
  rw [merge_eq hkey, Versioning.merge, stamp?_eq theirs, if_neg h.stamp, Option.some_or,
    if_pos hcurrent]
  simp [withVersions, hlatest, hrelease, hsnapshot, lastUpdated_eq h.stamp]

theorem merge_of_older (hkey : mine.key = theirs.key) (hmine : mine.stamp ≠ [])
    (htheirs : theirs.stamp ≠ []) (hlt : compare theirs.stamp mine.stamp = .lt) :
    mine.merge theirs = mine.withVersions
      (Versioning.unite mine.versioning.versions theirs.versioning.versions) := by
  have hcurrent : ¬ Versioning.isCurrent (some mine.stamp) (some theirs.stamp) = true := by
    simp [Versioning.isCurrent, hlt]
  rw [merge_eq hkey, Versioning.merge, stamp?_eq theirs, if_neg htheirs, Option.some_or,
    stamp?_eq mine, if_neg hmine, if_neg hcurrent]
  obtain ⟨hgroup, hartifact, hversion⟩ := MetadataKey.mk.inj hkey
  simp [withVersions, hgroup, hartifact, hversion]

def mergeAll (key : MetadataKey) (l : List Envelope) : Envelope := l.foldl merge (forKey key)

def newest (key : MetadataKey) (l : List Envelope) : Envelope :=
  l.foldl (fun e e' => if compare e.stamp e'.stamp = .lt then e' else e) (forKey key)

def listed (l : List Envelope) : List Text := l.flatMap (·.versioning.versions)

@[simp] theorem mergeAll_append (l : List Envelope) (e : Envelope) :
    mergeAll key (l ++ [e]) = (mergeAll key l).merge e := by
  simp [mergeAll]

@[simp] theorem newest_append (l : List Envelope) (e : Envelope) : newest key (l ++ [e]) =
    if compare (newest key l).stamp e.stamp = .lt then e else newest key l := by
  rw [newest, List.foldl_append]
  rfl

@[simp] theorem listed_append (l : List Envelope) (e : Envelope) :
    listed (l ++ [e]) = listed l ++ e.versioning.versions := by
  simp [listed]

/-- Envelopes of one key, complete and stamped at times of their own. -/
structure AreDated (key : MetadataKey) (l : List Envelope) : Prop where
  key : ∀ e ∈ l, e.key = key
  complete : ∀ e ∈ l, e.IsComplete
  distinct : (l.map stamp).Nodup

theorem AreDated.left (h : AreDated key (l ++ [e])) : AreDated key l where
  key e he := h.key e (List.mem_append_left _ he)
  complete e he := h.complete e (List.mem_append_left _ he)
  distinct := (List.nodup_append.mp (List.map_append ▸ h.distinct)).1

theorem AreDated.of_perm (h : AreDated key l) (hperm : l'.Perm l) : AreDated key l' where
  key e he := h.key e (hperm.mem_iff.mp he)
  complete e he := h.complete e (hperm.mem_iff.mp he)
  distinct := (hperm.map stamp).nodup_iff.mpr h.distinct

theorem eq_forKey_or_mem_newest (key : MetadataKey) (l : List Envelope) :
    newest key l = forKey key ∨ newest key l ∈ l := by
  induction l using List.reverseRecOn with
  | nil => exact .inl rfl
  | append_singleton l e ih =>
    rw [newest_append]
    split
    · simp
    · exact ih.imp_right (List.mem_append_left [e])

theorem isLE_newest (key : MetadataKey) (l : List Envelope) :
    ∀ e ∈ l, (compare e.stamp (newest key l).stamp).isLE := by
  induction l using List.reverseRecOn with
  | nil => simp
  | append_singleton l e ih =>
    intro e' he'
    rw [newest_append]
    rcases List.mem_append.mp he' with he' | he'
    · split
      · rename_i hlt
        exact Std.TransCmp.isLE_trans (ih e' he') (Ordering.isLE_of_eq_lt hlt)
      · exact ih e' he'
    · obtain rfl := List.mem_singleton.mp he'
      split
      · exact Std.ReflCmp.isLE_rfl
      · rename_i hlt
        rw [Ordering.isLE_iff_ne_gt, Std.OrientedCmp.gt_iff_lt]
        exact hlt

theorem key_newest (h : AreDated key l) : (newest key l).key = key := by
  rcases eq_forKey_or_mem_newest key l with hnone | hmem
  · rw [hnone, key_forKey]
  · exact h.key _ hmem

theorem newest_mem (h : AreDated key l) (he : e ∈ l) : newest key l ∈ l := by
  rcases eq_forKey_or_mem_newest key l with hnone | hmem
  · have hle := isLE_newest key l e he
    rw [hnone, stamp_forKey] at hle
    exact absurd hle (Std.OrientedCmp.not_isLE_of_lt (compare_nil (h.complete e he).stamp))
  · exact hmem

theorem eq_newest_or_lt (h : AreDated key l) (he : e ∈ l) :
    e = newest key l ∨ compare e.stamp (newest key l).stamp = .lt := by
  rcases Ordering.isLE_iff_eq_lt_or_eq_eq.mp (isLE_newest key l e he) with hlt | heq
  · exact .inr hlt
  · have hstamp := Std.LawfulEqCmp.eq_of_compare heq
    exact .inl (List.inj_on_of_nodup_map h.distinct he (newest_mem h he) hstamp)

theorem newest_of_perm (h : AreDated key l) (hperm : l'.Perm l) :
    newest key l' = newest key l := by
  cases l with
  | nil => rw [hperm.eq_nil]
  | cons e l =>
    have hmem := newest_mem h List.mem_cons_self
    have hmem' := newest_mem (h.of_perm hperm) (hperm.mem_iff.mpr List.mem_cons_self)
    rcases eq_newest_or_lt h (hperm.mem_iff.mp hmem') with heq | hlt
    · exact heq
    · have hle := isLE_newest key l' _ (hperm.mem_iff.mpr hmem)
      exact absurd hle (Std.OrientedCmp.not_isLE_of_lt hlt)

/-- An envelope that is not newer than those before it is older than the newest of them. -/
theorem compare_newest (h : AreDated key (l ++ [e]))
    (hlt : compare (newest key l).stamp e.stamp ≠ .lt) :
    compare e.stamp (newest key l).stamp = .lt := by
  have hmem : e ∈ l ++ [e] := by simp
  rcases eq_newest_or_lt h hmem with heq | hold
  · rw [newest_append, if_neg hlt] at heq
    rcases eq_forKey_or_mem_newest key l with hnone | hl
    · rw [hnone] at heq
      exact absurd (heq ▸ stamp_forKey) (h.complete e hmem).stamp
    · -- No stamp comes twice, so the last envelope is not one of those before it.
      have hnodup := h.distinct
      rw [List.map_append] at hnodup
      have hold : e.stamp ∈ l.map stamp := List.mem_map_of_mem (heq ▸ hl)
      exact absurd rfl ((List.nodup_append.mp hnodup).2.2 _ hold _ (by simp))
  · rwa [newest_append, if_neg hlt] at hold

theorem mergeAll_eq (h : AreDated key l) :
    mergeAll key l = (newest key l).withVersions (listed l).eraseDups := by
  induction l using List.reverseRecOn with
  | nil => rfl
  | append_singleton l e ih =>
    have hmem : e ∈ l ++ [e] := by simp
    have hkey : (mergeAll key l).key = e.key := by
      rw [ih h.left, key_withVersions, key_newest h.left, h.key e hmem]
    have hunite : Versioning.unite (mergeAll key l).versioning.versions e.versioning.versions =
        (listed (l ++ [e])).eraseDups := by
      rw [ih h.left, listed_append]
      exact Versioning.unite_eraseDups _ _
    have hstamp : (mergeAll key l).stamp = (newest key l).stamp := by
      rw [ih h.left, stamp_withVersions]
    rw [mergeAll_append, newest_append]
    split
    · rename_i hlt
      rw [merge_of_newer hkey (h.complete e hmem) (hstamp ▸ hlt), hunite]
    · rename_i hlt
      have hmine : (mergeAll key l).stamp ≠ [] := by
        intro hnil
        rw [← hstamp, hnil] at hlt
        exact hlt (compare_nil (h.complete e hmem).stamp)
      rw [merge_of_older hkey hmine (h.complete e hmem).stamp
        (hstamp ▸ compare_newest h hlt), hunite, ih h.left]
      rfl

/-- Whatever the order in which complete envelopes of a key are merged, one and the same of them
prevails, which is the one stamped last. Only the versions are those of all envelopes, each of them
once, in the order in which they were seen first. -/
theorem newest_prevails (h : AreDated key l) :
    ∃ e : Envelope, (l ≠ [] → e ∈ l) ∧
      (∀ e' ∈ l, e' = e ∨ compare e'.stamp e.stamp = .lt) ∧
      ∀ l', l'.Perm l → mergeAll key l' = e.withVersions (listed l').eraseDups ∧
        (listed l').eraseDups.Nodup ∧
        ∀ v, v ∈ (listed l').eraseDups ↔ ∃ e' ∈ l, v ∈ e'.versioning.versions := by
  refine ⟨newest key l, ?_, fun e he => eq_newest_or_lt h he, fun l' hperm => ⟨?_, ?_, ?_⟩⟩
  · intro hne
    obtain ⟨e, he⟩ := List.exists_mem_of_ne_nil l hne
    exact newest_mem h he
  · rw [mergeAll_eq (h.of_perm hperm), newest_of_perm h hperm]
  · -- The versions of all envelopes are those united with none.
    have hnodup := Versioning.nodup_unite .nil (listed l')
    rwa [← List.eraseDups_nil, Versioning.unite_eraseDups, List.nil_append] at hnodup
  · simp [listed, hperm.mem_iff]

def quarterly : List Envelope :=
  [⟨"g", "a", none, some "1", some "1", ["1"], some "20240101000000", some ⟨none, 1, false⟩⟩,
    ⟨"g", "a", none, some "3", some "2", ["1", "3"], some "20240701000000", some ⟨none, 4, false⟩⟩,
    ⟨"g", "a", none, some "2", some "2", ["2", "1"], some "20240401000000", some ⟨none, 2, true⟩⟩]

theorem newest_prevails_of_quarterly :
    ∃ e ∈ quarterly, (∀ e' ∈ quarterly, e' = e ∨ compare e'.stamp e.stamp = .lt) ∧
      mergeAll ⟨"g", "a", none⟩ quarterly.reverse = e.withVersions ["2", "1", "3"] := by
  have hdated : AreDated ⟨"g", "a", none⟩ quarterly := by
    refine ⟨by decide, fun e he => ?_, by decide⟩
    have hcomplete : e.stamp ≠ [] ∧ e.versioning.latest.isSome ∧ e.versioning.release.isSome ∧
        e.versioning.snapshot.isSome := by
      revert e
      decide
    exact ⟨hcomplete.1, hcomplete.2.1, hcomplete.2.2.1, hcomplete.2.2.2⟩
  obtain ⟨e, hmem, hnewest, hmerge⟩ := newest_prevails hdated
  exact ⟨e, hmem (by decide), hnewest, (hmerge _ quarterly.reverse_perm).1⟩

end Envelope

end Mediation
