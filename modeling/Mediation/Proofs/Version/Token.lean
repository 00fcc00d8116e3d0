import Mathlib.Tactic.SplitIfs
import Mediation.Version.Rank

/-! # Tokens of joined texts

Where a dot or a hyphen stands between two texts, each of them is cut by itself. A token behind
such a separator does not change what the tokens before it mean: it goes on with the numbers if
there is nothing but numbers before it, and with the qualifiers otherwise.
-/

namespace Mediation.Version

variable {c : Char} {s t : Text}

namespace Token

variable {separator sep : Separator}

theorem prepend_append (c : Char) {ts : List Token} (us : List Token) (h : ts ≠ []) :
    prepend c (ts ++ us) = prepend c ts ++ us := by
  cases ts with
  | nil => exact absurd rfl h
  | cons t ts => rfl

theorem splitAfter_ne_nil (separator : Separator) (t : Text) : splitAfter separator t ≠ [] := by
  induction t generalizing separator with
  | nil => simp [splitAfter]
  | cons c t ih =>
    simp only [splitAfter]
    split_ifs
    · simp
    · simp
    · simp
    · obtain ⟨u, us, hu⟩ := List.exists_cons_of_ne_nil (ih separator)
      simp [hu, prepend]

theorem eq_of_text_eq_singleton (h : sep.text = [c]) :
    c = '.' ∧ sep = .dot ∨ c = '-' ∧ sep = .hyphen := by
  cases sep <;> cases h <;> simp

theorem splitAfter_append (separator sep : Separator) (s t : Text) (h : sep.text = [c]) :
    splitAfter separator (s ++ c :: t) = splitAfter separator s ++ splitAfter sep t := by
  have hc := eq_of_text_eq_singleton h
  induction s generalizing separator with
  | nil => rcases hc with ⟨rfl, rfl⟩ | ⟨rfl, rfl⟩ <;> simp [splitAfter]
  | cons d s ih =>
    have hends : endsBefore d (s ++ c :: t) = endsBefore d s := by
      cases s with
      | nil => rcases hc with ⟨rfl, rfl⟩ | ⟨rfl, rfl⟩ <;> simp [endsBefore]
      | cons e s => rfl
    simp only [List.cons_append, splitAfter, hends, ih]
    split_ifs
    · rfl
    · rfl
    · rfl
    · exact prepend_append d _ (splitAfter_ne_nil separator s)

/-- Whether a text is a token: without separators, and of digits only or without any. -/
structure IsUniform (digits : Bool) (t : Text) : Prop where
  dot : '.' ∉ t
  hyphen : '-' ∉ t
  digits : ∀ c ∈ t, c.isDigit = digits

theorem IsUniform.tail {digits : Bool} (h : IsUniform digits (c :: t)) : IsUniform digits t where
  dot hm := h.dot (List.mem_cons_of_mem _ hm)
  hyphen hm := h.hyphen (List.mem_cons_of_mem _ hm)
  digits d hm := h.digits d (List.mem_cons_of_mem _ hm)

theorem IsUniform.ne {digits : Bool} (h : IsUniform digits (c :: t)) : c ≠ '.' ∧ c ≠ '-' := by
  constructor
  · rintro rfl
    exact h.dot List.mem_cons_self
  · rintro rfl
    exact h.hyphen List.mem_cons_self

theorem splitAfter_of_isUniform {digits : Bool} (h : IsUniform digits t) :
    splitAfter separator t = [⟨separator, t⟩] := by
  induction t with
  | nil => rfl
  | cons c t ih =>
    obtain ⟨hd, hh⟩ := h.ne
    have hends : endsBefore c t = false := by
      cases t with
      | nil => rfl
      | cons d t =>
        have hdc : d.isDigit = c.isDigit :=
          (h.digits d (by simp)).trans (h.digits c (by simp)).symm
        simp [endsBefore, hdc]
    rw [splitAfter, if_neg hd, if_neg hh, hends, if_neg Bool.false_ne_true, ih h.tail]
    rfl

end Token

theorem takeNumbers_append (ts us : List Token) : takeNumbers (ts ++ us) =
    if (takeNumbers ts).2 = [] then ((takeNumbers ts).1 ++ (takeNumbers us).1, (takeNumbers us).2)
    else ((takeNumbers ts).1, (takeNumbers ts).2 ++ us) := by
  induction ts with
  | nil => rfl
  | cons t ts ih =>
    simp only [List.cons_append, takeNumbers, ih]
    split_ifs <;> simp_all

/-- A token behind a separator does not tell what the word in front of it means. -/
theorem itemsOf_append (ts : List Token) {u : Token} (us : List Token)
    (hu : u.separator ≠ .transition) :
    itemsOf (ts ++ u :: us) = itemsOf ts ++ itemsOf (u :: us) := by
  induction ts with
  | nil => rfl
  | cons t ts ih =>
    have hf : digitFollows (ts ++ u :: us) = digitFollows ts := by
      cases ts <;> simp [digitFollows, hu]
    simp only [List.cons_append, itemsOf, hf, ih]
    split_ifs <;> rfl

end Mediation.Version
