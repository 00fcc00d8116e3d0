import Mediation.Proofs.Constraint.Listing

/-! # Reading what was printed

What is read is either a version with no bracket in front, which is printed as it was
written, or a list of printable intervals in ascending order. So every constraint that was
read is read again from its written form, up to the spelling of versions, and then the
written form stays.
-/

namespace Mediation

open Std

namespace Bound

variable {i : Bool} {t : Text} {b : Bound}

theorem text_of_read (h : read i t = some b) :
    t ≠ [] ∧ b.version = ⟨t⟩ := by
  cases t with
  | nil => cases h
  | cons c t =>
    cases h
    exact ⟨List.cons_ne_nil c t, rfl⟩

theorem isSpellable_of_read (h : read i t = some b)
    (ht : t.IsTight) (hc : ',' ∉ t) (hb : ∀ c ∈ t, closesInterval c = false) :
    b.version.IsSpellable := by
  obtain ⟨hne, hv⟩ := text_of_read h
  rw [hv]
  exact ⟨hne, ht, hc, hb⟩

end Bound

namespace Restriction

variable {r s : Restriction} {piece : Text}

theorem overlapsAfter_eq_false_iff {previous : Option Bound} :
    s.overlapsAfter previous = false ↔ ∃ high low, previous = some high ∧ s.lower = some low ∧
      low.version.precedes high.version = false := by
  obtain ⟨low, upper⟩ := s
  cases previous <;> cases low <;> simp [overlapsAfter]

theorem overlapsAfter_reread (h : s.overlapsAfter r.upper = false) :
    s.reread.overlapsAfter r.reread.upper = false := by
  obtain ⟨high, low, hu, hl, hp⟩ := overlapsAfter_eq_false_iff.mp h
  have hlow : s.reread.lower = some low := by
    unfold reread
    split <;> exact hl
  refine overlapsAfter_eq_false_iff.mpr ?_
  cases hr : r.isPoint with
  | false => exact ⟨high, low, by rw [reread_of_not_isPoint hr, hu], hlow, hp⟩
  | true =>
    obtain ⟨v, w, hvw, hv, hw⟩ := isPoint_iff.mp hr
    obtain rfl : high = ⟨w, true⟩ := Option.some.inj (hu.symm.trans hw)
    refine ⟨⟨v, true⟩, low, by rw [reread_of_isPoint hr, hv], hlow, ?_⟩
    rwa [Version.precedes, TransCmp.congr_right (Version.compare_eq_of_same hvw)]

theorem isPrintable_exactly {v : Version} (h : v.IsSpellable) : (exactly v).IsPrintable where
  lower _ hb := by
    cases hb
    exact h
  upper _ hb := by
    cases hb
    exact h
  ordered := by simp [isReversed, exactly, Version.precedes, ReflCmp.compare_self]
  point low hlow high hhigh _ := by
    cases hlow
    cases hhigh
    exact ⟨rfl, rfl⟩

theorem isPrintable_of_read (h : read piece = .ok r)
    (hc : ∀ c ∈ piece.dropLast, closesInterval c = false) : r.IsPrintable := by
  have hinner : ∀ c ∈ Text.trim (piece.drop 1).dropLast, closesInterval c = false := by
    intro c hm
    have hm := Text.mem_of_mem_trim hm
    rw [List.drop_one, ← List.tail_dropLast] at hm
    exact hc c (List.mem_of_mem_tail hm)
  have htight := Text.isTight_trim (piece.drop 1).dropLast
  simp only [read] at h
  generalize Text.trim (piece.drop 1).dropLast = inner at h hinner htight
  split at h
  · rename_i hcut
    split_ifs at h with hi he
    cases h
    exact isPrintable_exactly
      ⟨by simpa using he, htight, Text.cutAt_eq_none_iff.mp hcut, hinner⟩
  · rename_i before after hcut
    split_ifs at h with hmany hone hrev
    cases h
    obtain ⟨rfl, hbefore⟩ := Text.eq_of_cutAt hcut
    exact {
      lower b hb := by
        refine Bound.isSpellable_of_read hb (Text.isTight_trim _)
          (fun hm => hbefore (Text.mem_of_mem_trim hm)) fun c hm => hinner c ?_
        exact List.mem_append_left _ (Text.mem_of_mem_trim hm)
      upper b hb := by
        refine Bound.isSpellable_of_read hb (Text.isTight_trim _) (by simpa using hmany)
          fun c hm => hinner c ?_
        exact List.mem_append_right _ (List.mem_cons_of_mem _ (Text.mem_of_mem_trim hm))
      ordered := by simpa using hrev
      point := by
        -- two bounds of one spelling are refused
        intro low hlow high hhigh hv
        obtain ⟨hne, hl⟩ := Bound.text_of_read hlow
        obtain ⟨-, hh⟩ := Bound.text_of_read hhigh
        have he : before.trim = after.trim := congrArg Version.text (hl.symm.trans (hv.trans hh))
        simp [← he, hne] at hone }

end Restriction

namespace Constraint

variable {spec piece left t : Text} {pieces : List Text} {previous : Option (Option Bound)}
  {rs : List Restriction} {c : Constraint}

theorem IsAscending.reread (h : IsAscending rs) : IsAscending (rs.map Restriction.reread) :=
  (List.isChain_map _).mpr (h.imp fun _ _ => Restriction.overlapsAfter_reread)

theorem isPrintable_of_readIntervals
    (h : readIntervals spec previous piece pieces = .ok (rs, left))
    (hp : ∀ p ∈ piece :: pieces, ∀ c ∈ p.dropLast, closesInterval c = false) :
    (∀ r ∈ rs, r.IsPrintable) ∧ IsAscending rs ∧
      ∀ r ∈ rs.head?, previous.any r.overlapsAfter = false := by
  induction pieces generalizing previous piece rs with
  | nil =>
    obtain ⟨-, rfl, -⟩ | ⟨_, _, _, _, hm, -⟩ := readIntervals_eq_ok_iff.mp h
    · exact ⟨nofun, .nil, nofun⟩
    · cases hm
  | cons next more ih =>
    obtain ⟨-, rfl, -⟩ | ⟨_, _, r, rest, hm, -, hr, hprev, rfl, hrest⟩ :=
      readIntervals_eq_ok_iff.mp h
    · exact ⟨nofun, .nil, nofun⟩
    cases hm
    obtain ⟨hpiece, hnext, hmore⟩ : _ ∧ _ ∧ _ := by simpa only [List.forall_mem_cons] using hp
    have hafter : ∀ c ∈ (afterInterval next).dropLast, closesInterval c = false := by
      obtain ⟨u, hu⟩ := afterInterval_suffix next
      intro c hc
      refine hnext c ?_
      rw [← hu, List.dropLast_append_of_ne_nil (by rintro he; simp [he] at hc)]
      exact List.mem_append_right u hc
    obtain ⟨hprint, hasc, hhead⟩ := ih hrest (List.forall_mem_cons.mpr ⟨hafter, hmore⟩)
    refine ⟨List.forall_mem_cons.mpr ⟨Restriction.isPrintable_of_read hr hpiece, hprint⟩,
      List.isChain_cons.mpr ⟨hhead, hasc⟩, ?_⟩
    intro s hs
    cases hs
    exact hprev

theorem read_trim (t : Text) : read t.trim = read t := by
  simp only [read, Text.trim_trim]

/-- What a constraint that was read is like: a recommendation that its text is read as, or
printable intervals that ascend. -/
inductive IsLegible : Constraint → Prop
  | soft {v : Version} (h : read v.text = .ok (.soft v)) : IsLegible (.soft v)
  | range {rs : List Restriction} (hne : rs ≠ []) (hp : ∀ r ∈ rs, r.IsPrintable)
      (ha : IsAscending rs) : IsLegible ⟨none, rs⟩

theorem isLegible_of_read (h : read t = .ok c) : c.IsLegible := by
  have hread := h
  simp only [read] at h
  split at h
  · cases h
  rename_i hne
  generalize hcut : cutBehindBrackets t.trim = cut at h
  have hpieces := closesInterval_of_mem_piece t.trim
  have hflat := flatten_cutBehindBrackets t.trim
  rw [hcut] at hpieces hflat
  cases hi : readIntervals t.trim none cut.1 cut.2 with
  | error e => simp [hi, bind, Except.bind] at h
  | ok p =>
    obtain ⟨rs, left⟩ := p
    obtain ⟨hp, ha, -⟩ := isPrintable_of_readIntervals hi hpieces
    obtain ⟨-, rfl, hl⟩ | ⟨_, _, r, rest, -, -, -, -, rfl, -⟩ := readIntervals_eq_ok_iff.mp hi
    · obtain rfl : t.trim = left := hflat.symm.trans hl
      simp only [hi, bind, Except.bind, hne] at h
      cases h
      exact .soft ((read_trim t).trans hread)
    · simp only [hi, bind, Except.bind] at h
      split at h
      · cases h
        exact .range (List.cons_ne_nil r rest) hp ha
      · cases h

theorem all_same_reread (rs : List Restriction) :
    (rs.zip (rs.map Restriction.reread)).all (fun (r, s) => r.same s) = true := by
  induction rs with
  | nil => rfl
  | cons r rs ih => simp [Restriction.same_reread, ih]

/-- A constraint that was read is read again from its written form, up to the spelling of
versions, and printing the result gives the same text. -/
theorem rereads_printed (h : read t = .ok c) :
    ∃ d, read c.text = .ok d ∧ c.same d = true ∧ d.text = c.text := by
  cases isLegible_of_read h with
  | @soft v hv =>
    refine ⟨.soft v, hv, ?_, rfl⟩
    simp [same, soft, Version.same_refl, Restriction.same, Restriction.everything, sameBound]
  | @range rs hne hp ha =>
    refine ⟨⟨none, rs.map Restriction.reread⟩, read_text hne hp ha.reread, ?_, ?_⟩
    · simp [same, all_same_reread]
    · simp [text, Function.comp_def, Restriction.text_reread]

/-- A point with two spellings of its version, and an interval behind it without a comma. -/
def crowded : Text := "[1, 1.0 ][2,)"

theorem rereads_crowded :
    ∃ c d, read crowded = .ok c ∧ c.text = "[1],[2,)".toList ∧ read c.text = .ok d ∧
      c.same d = true ∧ d.text = c.text := by
  have h : read crowded = .ok ⟨none, [⟨some ⟨⟨"1"⟩, true⟩, some ⟨⟨"1.0"⟩, true⟩⟩,
      ⟨some ⟨⟨"2"⟩, true⟩, none⟩]⟩ := by
    decide +kernel
  obtain ⟨d, hd, hs, ht⟩ := rereads_printed h
  exact ⟨_, d, h, by decide +kernel, hd, hs, ht⟩

end Constraint

end Mediation
