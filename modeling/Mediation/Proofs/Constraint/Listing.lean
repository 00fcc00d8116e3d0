import Mathlib.Tactic.Common
import Mediation.Proofs.Constraint.Spelling

/-! # Lists of intervals

Reading takes one interval after the other as long as each begins where the one in front
of it has ended. A list of printable intervals in this order is read back, each as what
it stands for.
-/

namespace Mediation

variable {c : Char} {s t : Text}

theorem cutBehindBrackets_append (hs : ∀ d ∈ s, closesInterval d = false)
    (hc : closesInterval c = true) :
    cutBehindBrackets (s ++ c :: t) =
      (s ++ [c], (cutBehindBrackets t).1 :: (cutBehindBrackets t).2) := by
  induction s with
  | nil => simp [cutBehindBrackets, hc]
  | cons d s ih =>
    obtain ⟨hd, hs⟩ := List.forall_mem_cons.mp hs
    simp [cutBehindBrackets, hd, ih hs]

theorem flatten_cutBehindBrackets (t : Text) :
    (cutBehindBrackets t).1 ++ (cutBehindBrackets t).2.flatten = t := by
  induction t with
  | nil => rfl
  | cons c t ih =>
    cases hc : closesInterval c <;> simp [cutBehindBrackets, hc, ih]

theorem closesInterval_of_mem_piece (t : Text) :
    ∀ p ∈ (cutBehindBrackets t).1 :: (cutBehindBrackets t).2, ∀ c ∈ p.dropLast,
      closesInterval c = false := by
  induction t with
  | nil => simp [cutBehindBrackets]
  | cons c t ih =>
    obtain ⟨hfirst, hothers⟩ := List.forall_mem_cons.mp ih
    cases hc : closesInterval c with
    | true =>
      simp only [cutBehindBrackets, hc, if_true, List.forall_mem_cons]
      exact ⟨nofun, hfirst, hothers⟩
    | false =>
      simp only [cutBehindBrackets, hc, Bool.false_eq_true, if_false, List.forall_mem_cons]
      refine ⟨fun d hd => ?_, hothers⟩
      cases hp : (cutBehindBrackets t).1 with
      | nil => simp [hp] at hd
      | cons e p =>
        rw [hp, List.dropLast_cons_cons, List.mem_cons] at hd
        rcases hd with rfl | hd
        · exact hc
        · exact hfirst d (hp ▸ hd)

namespace Constraint

variable {spec piece next left : Text} {pieces more : List Text} {previous : Option (Option Bound)}
  {r : Restriction} {rs : List Restriction}

theorem afterInterval_suffix (t : Text) : afterInterval t <:+ t := by
  have hs := Text.trimStart_isSuffix t
  unfold afterInterval
  split
  · rename_i rest he
    rw [he] at hs
    exact (Text.trimStart_isSuffix rest).trans ((List.suffix_cons ',' rest).trans hs)
  · exact hs

theorem trimStart_of_opensInterval (h : opensInterval t = true) : t.trimStart = t := by
  refine Text.trimStart_eq_self fun c hc => ?_
  rw [Option.mem_def] at hc
  simp only [opensInterval, hc, Option.any_some, Bool.or_eq_true, beq_iff_eq] at h
  rcases h with rfl | rfl <;> rfl

theorem afterInterval_comma (h : opensInterval t = true) : afterInterval (',' :: t) = t := by
  have hc : Text.trimStart (',' :: t) = ',' :: t := Text.trimStart_eq_self (by simp; decide)
  simp [afterInterval, hc, trimStart_of_opensInterval h]

/-- Reading ends at a piece without an opening bracket, or takes the piece as an interval. -/
theorem readIntervals_eq_ok_iff :
    readIntervals spec previous piece pieces = .ok (rs, left) ↔
      (opensInterval piece = false ∧ [] = rs ∧ piece ++ pieces.flatten = left) ∨
      ∃ next more r rest, pieces = next :: more ∧ opensInterval piece = true ∧
        Restriction.read piece = .ok r ∧ previous.any r.overlapsAfter = false ∧
        r :: rest = rs ∧
        readIntervals spec (some r.upper) (afterInterval next) more = .ok (rest, left) := by
  cases pieces with
  | nil => cases ho : opensInterval piece <;> simp [readIntervals, ho]
  | cons next more =>
    cases ho : opensInterval piece with
    | false => simp [readIntervals, ho]
    | true =>
      cases hr : Restriction.read piece with
      | error e => simp [readIntervals, ho, hr, bind, Except.bind]
      | ok r =>
        cases hover : previous.any r.overlapsAfter with
        | true => simp [readIntervals, ho, hr, hover, bind, Except.bind, throw, throwThe,
            MonadExceptOf.throw]
        | false =>
          cases hrest : readIntervals spec (some r.upper) (afterInterval next) more with
          | error e => simp [readIntervals, ho, hr, hover, hrest, bind, Except.bind]
          | ok p =>
            simp [readIntervals, ho, hr, hover, hrest, bind, Except.bind, pure, Except.pure,
              Prod.ext_iff, and_comm]

def joined (rs : List Restriction) : Text := Text.joinWith "," (rs.map Restriction.text)

theorem text_eq_joined (rs : List Restriction) : text ⟨none, rs⟩ = joined rs := rfl

def joinedBehind : List Restriction → Text
  | [] => []
  | rs => ',' :: joined rs

theorem joined_cons (r : Restriction) (rs : List Restriction) :
    joined (r :: rs) = r.text ++ joinedBehind rs := by
  cases rs with
  | nil => simp [joined, joinedBehind, Text.joinWith_singleton]
  | cons s rs => simp [joined, joinedBehind, Text.joinWith_cons_cons]

theorem isTight_joined (rs : List Restriction) : (joined rs).IsTight := by
  induction rs with
  | nil => exact .nil
  | cons r rs ih =>
    rw [joined_cons]
    cases rs with
    | nil => simpa [joinedBehind] using r.isTight_text
    | cons s rs => exact r.isTight_text.append_cons (by decide) ih

theorem cutBehindBrackets_joined (hr : r.IsPrintable) :
    cutBehindBrackets (joined (r :: rs)) =
      (r.text, (cutBehindBrackets (joinedBehind rs)).1 ::
        (cutBehindBrackets (joinedBehind rs)).2) := by
  have hbody : ∀ c ∈ r.opening :: r.inside, closesInterval c = false :=
    List.forall_mem_cons.mpr ⟨r.closesInterval_opening, hr.closesInterval_inside⟩
  have ht : joined (r :: rs) = (r.opening :: r.inside) ++ r.closing :: joinedBehind rs := by
    simp [joined_cons, Restriction.text_eq]
  rw [ht, cutBehindBrackets_append hbody r.closesInterval_closing, Restriction.text_eq,
    List.cons_append]

theorem afterInterval_joinedBehind (h : ∀ r ∈ rs, r.IsPrintable) :
    afterInterval (cutBehindBrackets (joinedBehind rs)).1 = (cutBehindBrackets (joined rs)).1 ∧
      (cutBehindBrackets (joinedBehind rs)).2 = (cutBehindBrackets (joined rs)).2 := by
  cases rs with
  | nil => exact ⟨rfl, rfl⟩
  | cons s rs =>
    have hcut : cutBehindBrackets (',' :: joined (s :: rs)) =
        (',' :: (cutBehindBrackets (joined (s :: rs))).1,
          (cutBehindBrackets (joined (s :: rs))).2) := by
      simp [cutBehindBrackets, closesInterval]
    have hopens : opensInterval (cutBehindBrackets (joined (s :: rs))).1 = true := by
      rw [cutBehindBrackets_joined (h s List.mem_cons_self)]
      exact s.opensInterval_text
    simp [joinedBehind, hcut, afterInterval_comma hopens]

/-- Whether every interval but the first begins where the one in front of it has ended. -/
def IsAscending (rs : List Restriction) : Prop :=
  rs.IsChain fun r s => s.overlapsAfter r.upper = false

theorem readIntervals_joined (h : ∀ r ∈ rs, r.IsPrintable)
    (hc : IsAscending (rs.map Restriction.reread))
    (hprev : ∀ r ∈ rs.head?, previous.any r.reread.overlapsAfter = false) :
    readIntervals spec previous (cutBehindBrackets (joined rs)).1
      (cutBehindBrackets (joined rs)).2 = .ok (rs.map Restriction.reread, []) := by
  induction rs generalizing previous with
  | nil => rfl
  | cons r rs ih =>
    obtain ⟨hr, hrs⟩ := List.forall_mem_cons.mp h
    obtain ⟨hafter, hmore⟩ := afterInterval_joinedBehind hrs
    obtain ⟨hnext, hrest⟩ := List.isChain_cons.mp hc
    have hnext : ∀ s ∈ rs.head?, (some r.reread.upper).any s.reread.overlapsAfter = false :=
      fun s hs => hnext s.reread (by simpa using ⟨s, hs, rfl⟩)
    have hrest := ih hrs hrest hnext
    rw [cutBehindBrackets_joined hr]
    refine readIntervals_eq_ok_iff.mpr (.inr ?_)
    exact ⟨_, _, r.reread, _, rfl, r.opensInterval_text, hr.read_text, hprev r rfl, rfl,
      by rw [hafter, hmore]; exact hrest⟩

/-- A printed list of ascending intervals is read, each as what its written form stands for. -/
theorem read_text (hne : rs ≠ []) (h : ∀ r ∈ rs, r.IsPrintable)
    (hc : IsAscending (rs.map Restriction.reread)) :
    read (text ⟨none, rs⟩) = .ok ⟨none, rs.map Restriction.reread⟩ := by
  have htrim : Text.trim (joined rs) = joined rs := (isTight_joined rs).trim_eq
  have hempty : (joined rs).isEmpty = false := by
    obtain ⟨r, rs, rfl⟩ := List.exists_cons_of_ne_nil hne
    simp [joined_cons, Restriction.text_eq]
  have hread : readIntervals (joined rs) none (cutBehindBrackets (joined rs)).1
      (cutBehindBrackets (joined rs)).2 = .ok (rs.map Restriction.reread, []) :=
    readIntervals_joined h hc fun _ _ => rfl
  simp [read, text_eq_joined, htrim, hempty, hread, bind, Except.bind, pure, Except.pure]

end Constraint

end Mediation
