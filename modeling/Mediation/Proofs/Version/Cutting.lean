import Mathlib.Data.List.Chain
import Mediation.Proofs.Version.Token

/-! # Cuts of a text

The tokens of a text are its only cut: behind the characters of their separators they put the text
together again, each is of one kind, and where no character separates two of them, digits meet
other characters. So nothing is lost, and no token goes on where another kind begins.
-/

namespace Mediation.Version.Token

variable {c : Char} {s t : Text} {digits : Bool} {separator sep : Separator} {v : Token}
  {us : List Token}

/-- Whether digits and other characters meet between two tokens: both have characters, one of
them only digits, and the other one none. -/
def Alternates (u v : Token) : Prop :=
  u.text ≠ [] ∧ v.text ≠ [] ∧ ∃ digits, IsUniform digits u.text ∧ IsUniform (!digits) v.text

/-- Whether tokens are the parts of a text, which they write again behind their separators. Only the
first one stands at its start. Each of them is of one kind and holds no separator, and behind a
transition stands one of the other kind. -/
structure IsCut (t : Text) (ts : List Token) : Prop where
  unsplit : unsplit ts = t
  start : ∃ w us, ts = ⟨.start, w⟩ :: us ∧ ∀ u ∈ us, u.separator ≠ .start
  uniform : ∀ u ∈ ts, ∃ digits, IsUniform digits u.text
  alternates : ts.IsChain fun u v => v.separator = .transition → u.Alternates v

theorem isUniform_nil (digits : Bool) : IsUniform digits [] := ⟨by simp, by simp, by simp⟩

theorem isUniform_cons (hd : c ≠ '.') (hh : c ≠ '-') :
    IsUniform digits (c :: t) ↔ c.isDigit = digits ∧ IsUniform digits t := by
  constructor
  · intro h
    exact ⟨h.digits c List.mem_cons_self, h.tail⟩
  · rintro ⟨hc, h⟩
    refine ⟨?_, ?_, ?_⟩
    · simpa [hd.symm] using h.dot
    · simpa [hh.symm] using h.hyphen
    · simpa [hc] using h.digits

theorem isUniform_singleton (hd : c ≠ '.') (hh : c ≠ '-') : IsUniform c.isDigit [c] :=
  (isUniform_cons hd hh).mpr ⟨rfl, isUniform_nil _⟩

/-- The first token has the separator that it was given, and all others have separators of their
own. -/
theorem exists_splitAfter (separator : Separator) (t : Text) :
    ∃ w us, splitAfter separator t = ⟨separator, w⟩ :: us ∧ ∀ u ∈ us, u.separator ≠ .start := by
  induction t generalizing separator with
  | nil => exact ⟨[], [], rfl, by simp⟩
  | cons c t ih =>
    obtain ⟨w, us, hw, hus⟩ := ih separator
    have hnext {sep : Separator} (hsep : sep ≠ .start) : ∀ u ∈ splitAfter sep t,
        u.separator ≠ .start := by
      obtain ⟨w, us, hw, hus⟩ := ih sep
      rw [hw]
      exact List.forall_mem_cons.mpr ⟨hsep, hus⟩
    simp only [splitAfter]
    split_ifs
    · exact ⟨[], _, rfl, hnext (by decide)⟩
    · exact ⟨[], _, rfl, hnext (by decide)⟩
    · exact ⟨[c], _, rfl, hnext (by decide)⟩
    · exact ⟨c :: w, us, by rw [hw]; rfl, hus⟩

/-- A token ends exactly before a first token that begins with the other kind. -/
theorem endsBefore_iff {w : Text} (h : splitAfter separator t = ⟨sep, w⟩ :: us) (c : Char) :
    endsBefore c t = true ↔ ∃ d ∈ w.head?, c.isDigit ≠ d.isDigit := by
  cases t with
  | nil =>
    obtain ⟨⟨rfl, rfl⟩, rfl⟩ : (separator = sep ∧ [] = w) ∧ [] = us := by simpa [splitAfter] using h
    simp [endsBefore]
  | cons d t =>
    obtain ⟨v, vs, hv, -⟩ := exists_splitAfter separator t
    simp only [splitAfter, hv] at h
    split_ifs at h with hd hh he
    · cases h
      simp [endsBefore, hd]
    · cases h
      simp [endsBefore, hh]
    · cases h
      simp [endsBefore, hd, hh]
    · cases h
      simp [endsBefore, hd, hh]

theorem unsplit_cons (u : Token) (us : List Token) :
    unsplit (u :: us) = u.separator.text ++ u.text ++ unsplit us := by
  simp [unsplit]

theorem unsplit_splitAfter (separator : Separator) (t : Text) :
    unsplit (splitAfter separator t) = separator.text ++ t := by
  induction t generalizing separator with
  | nil => simp [splitAfter, unsplit]
  | cons c t ih =>
    obtain ⟨w, us, hw, -⟩ := exists_splitAfter separator t
    have hrest := ih separator
    simp only [hw, unsplit_cons, List.append_assoc, List.append_cancel_left_eq] at hrest
    simp only [splitAfter]
    split_ifs with hd hh
    · simp [unsplit_cons, ih, Separator.text, hd]
    · simp [unsplit_cons, ih, Separator.text, hh]
    · simp [unsplit_cons, ih, Separator.text]
    · simp [unsplit_cons, hw, prepend, hrest]

/-- A first token stays of one kind with a character before it at which it does not end. -/
theorem isUniform_prepend {w : Text} (h : splitAfter separator t = ⟨sep, w⟩ :: us) (hne : w ≠ [])
    (hu : IsUniform digits w) (hd : c ≠ '.') (hh : c ≠ '-') (he : ¬ endsBefore c t = true) :
    IsUniform digits (c :: w) := by
  obtain ⟨d, w, rfl⟩ := List.exists_cons_of_ne_nil hne
  have hc : c.isDigit = d.isDigit := by simpa [endsBefore_iff h] using he
  exact (isUniform_cons hd hh).mpr ⟨hc.trans (hu.digits d List.mem_cons_self), hu⟩

theorem isUniform_splitAfter (separator : Separator) (t : Text) :
    ∀ u ∈ splitAfter separator t, ∃ digits, IsUniform digits u.text := by
  induction t generalizing separator with
  | nil => simp [splitAfter, isUniform_nil]
  | cons c t ih =>
    simp only [splitAfter]
    split_ifs with hd hh he
    · exact List.forall_mem_cons.mpr ⟨⟨true, isUniform_nil true⟩, ih .dot⟩
    · exact List.forall_mem_cons.mpr ⟨⟨true, isUniform_nil true⟩, ih .hyphen⟩
    · exact List.forall_mem_cons.mpr ⟨⟨c.isDigit, isUniform_singleton hd hh⟩, ih .transition⟩
    · obtain ⟨w, us, hw, -⟩ := exists_splitAfter separator t
      have hrest := ih separator
      rw [hw] at hrest ⊢
      obtain ⟨⟨digits, hu⟩, hus⟩ := List.forall_mem_cons.mp hrest
      refine List.forall_mem_cons.mpr ⟨?_, hus⟩
      by_cases hne : w = []
      · exact ⟨c.isDigit, hne ▸ isUniform_singleton hd hh⟩
      · exact ⟨digits, isUniform_prepend hw hne hu hd hh he⟩

theorem isChain_splitAfter (separator : Separator) (t : Text) :
    (splitAfter separator t).IsChain fun u v => v.separator = .transition → u.Alternates v := by
  induction t generalizing separator with
  | nil => exact .singleton _
  | cons c t ih =>
    have hcons {u : Token} {sep : Separator} (hsep : sep ≠ .transition) :
        (u :: splitAfter sep t).IsChain fun u v => v.separator = .transition → u.Alternates v := by
      obtain ⟨w, us, hw, -⟩ := exists_splitAfter sep t
      have hrest := ih sep
      rw [hw] at hrest ⊢
      exact .cons_cons (fun h => absurd h hsep) hrest
    simp only [splitAfter]
    split_ifs with hd hh he
    · exact hcons (by decide)
    · exact hcons (by decide)
    · obtain ⟨w, us, hw, -⟩ := exists_splitAfter .transition t
      obtain ⟨d, hdw, hcd⟩ := (endsBefore_iff hw c).mp he
      have hmem : d ∈ w := List.mem_of_mem_head? hdw
      have hrest := ih .transition
      have huniform := isUniform_splitAfter .transition t
      rw [hw] at hrest huniform ⊢
      obtain ⟨digits, hu⟩ := huniform _ List.mem_cons_self
      obtain rfl : digits = !c.isDigit := by
        rw [← hu.digits d hmem, Bool.eq_not]
        exact hcd.symm
      exact .cons_cons (fun _ => ⟨List.cons_ne_nil c [], List.ne_nil_of_mem hmem, c.isDigit,
        isUniform_singleton hd hh, hu⟩) hrest
    · obtain ⟨w, us, hw, -⟩ := exists_splitAfter separator t
      have hrest := ih separator
      rw [hw] at hrest ⊢
      obtain ⟨hfirst, htail⟩ := List.isChain_cons.mp hrest
      refine List.isChain_cons.mpr ⟨fun v hv htr => ?_, htail⟩
      -- the first token had characters before, so `c` does not change its kind
      obtain ⟨hne, hv, digits, hu, hother⟩ := hfirst v hv htr
      exact ⟨List.cons_ne_nil c w, hv, digits, isUniform_prepend hw hne hu hd hh he, hother⟩

theorem isCut_split (t : Text) : IsCut t (split t) where
  unsplit := unsplit_splitAfter .start t
  start := exists_splitAfter .start t
  uniform := isUniform_splitAfter .start t
  alternates := isChain_splitAfter .start t

/-- A token ends where the characters of the next one are of the other kind. -/
theorem splitAfter_append_transition (hu : IsUniform digits s) (hs : s ≠ [])
    (hv : IsUniform (!digits) v.text) (hne : v.text ≠ []) (separator : Separator) (t : Text) :
    splitAfter separator (s ++ (v.text ++ t)) =
      ⟨separator, s⟩ :: splitAfter .transition (v.text ++ t) := by
  obtain ⟨d, w, hw⟩ := List.exists_cons_of_ne_nil hne
  rw [hw] at hv ⊢
  obtain ⟨hdot, hhyphen⟩ := hv.ne
  have hd : d.isDigit = !digits := hv.digits d List.mem_cons_self
  induction s with
  | nil => exact absurd rfl hs
  | cons c s ih =>
    obtain ⟨hcd, hch⟩ := hu.ne
    have hc : c.isDigit = digits := hu.digits c List.mem_cons_self
    cases s with
    | nil => simp [splitAfter, endsBefore, hcd, hch, hc, hd, hdot, hhyphen]
    | cons e s =>
      have he : e.isDigit = digits := hu.tail.digits e List.mem_cons_self
      have hends : endsBefore c (e :: s ++ (d :: w ++ t)) = false := by
        simp [endsBefore, hc, he]
      rw [List.cons_append, splitAfter, if_neg hcd, if_neg hch, hends,
        ih hu.tail (List.cons_ne_nil e s)]
      rfl

theorem splitAfter_unsplit (hsep : ∀ u ∈ us, u.separator ≠ .start)
    (hu : ∀ u ∈ ⟨separator, s⟩ :: us, ∃ digits, IsUniform digits u.text)
    (hc : (⟨separator, s⟩ :: us).IsChain fun u v => v.separator = .transition → u.Alternates v) :
    splitAfter separator (s ++ unsplit us) = ⟨separator, s⟩ :: us := by
  induction us generalizing separator s with
  | nil =>
    obtain ⟨digits, hs⟩ := hu _ List.mem_cons_self
    simpa [unsplit] using splitAfter_of_isUniform hs
  | cons v us ih =>
    obtain ⟨digits, hs⟩ := hu _ List.mem_cons_self
    obtain ⟨hmeet, htail⟩ := List.isChain_cons_cons.mp hc
    have hrest := ih (fun u h => hsep u (List.mem_cons_of_mem v h))
      (fun u h => hu u (List.mem_cons_of_mem _ h)) htail
    have hbehind {c : Char} (hv : v.separator.text = [c]) :
        splitAfter separator (s ++ unsplit (v :: us)) = ⟨separator, s⟩ :: v :: us := by
      rw [unsplit_cons, hv, List.append_assoc, List.singleton_append,
        splitAfter_append _ v.separator _ _ hv, splitAfter_of_isUniform hs, hrest]
      rfl
    cases hv : v.separator with
    | start => exact absurd hv (hsep v List.mem_cons_self)
    | dot => exact hbehind (by rw [hv]; rfl)
    | hyphen => exact hbehind (by rw [hv]; rfl)
    | transition =>
      obtain ⟨hne, hvne, digits, hs, hvs⟩ := hmeet hv
      rw [hv] at hrest
      rw [unsplit_cons, hv, List.append_assoc, Separator.text, List.nil_append,
        splitAfter_append_transition hs hne hvs hvne, hrest, ← hv]

/-- The tokens of a text are its only cut. -/
theorem split_eq_iff_isCut (t : Text) (ts : List Token) : split t = ts ↔ IsCut t ts := by
  constructor
  · rintro rfl
    exact isCut_split t
  · rintro ⟨rfl, ⟨w, us, rfl, hus⟩, huniform, hchain⟩
    simpa [unsplit_cons, Separator.text, split] using splitAfter_unsplit hus huniform hchain

/-- A digit of another script is no digit, and an empty token stands between two separators. -/
example : split "2rc1.-٣".toList = [⟨.start, ['2']⟩, ⟨.transition, ['r', 'c']⟩,
    ⟨.transition, ['1']⟩, ⟨.dot, []⟩, ⟨.hyphen, ['٣']⟩] := by decide

end Mediation.Version.Token
