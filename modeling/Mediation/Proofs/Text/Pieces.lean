import Mediation.Proofs.Text.Trim

/-! # Texts in pieces

A text cut at every place of a character is put together again from its pieces, none of which holds
the character. So the pieces tell the text, and another character between them replaces the one
that it was cut at.
-/

namespace Mediation.Text

variable {c : Char} {s t : Text} {pieces others : List Text}

theorem not_mem_of_mem_splitOn (h : s ∈ t.splitOn c) : c ∉ s := by
  induction t generalizing s with
  | nil => simp_all
  | cons d t ih =>
    rw [List.splitOn_cons_eq_if_modifyHead] at h
    split at h
    · rcases List.mem_cons.mp h with rfl | h
      · exact List.not_mem_nil
      · exact ih h
    · rename_i hd
      cases ht : t.splitOn c with
      | nil => exact absurd ht (List.splitOn_ne_nil c t)
      | cons first rest =>
        rw [ht, List.modifyHead_cons] at h
        rcases List.mem_cons.mp h with rfl | h
        · have hfirst : c ∉ first := ih (ht ▸ List.mem_cons_self)
          rintro (_ | hc)
          · simp at hd
          · contradiction
        · exact ih (ht ▸ List.mem_cons_of_mem first h)

theorem joinWith_splitOn (c : Char) (t : Text) : joinWith [c] (t.splitOn c) = t :=
  List.intercalate_splitOn c

theorem splitOn_joinWith (hne : pieces ≠ []) (h : ∀ p ∈ pieces, c ∉ p) :
    (joinWith [c] pieces).splitOn c = pieces :=
  List.splitOn_intercalate c h hne

theorem eq_of_splitOn_eq (h : s.splitOn c = t.splitOn c) : s = t := by
  rw [← joinWith_splitOn c s, h, joinWith_splitOn]

theorem joinWith_cons (separator : Text) (s : Text) (hne : pieces ≠ []) :
    joinWith separator (s :: pieces) = s ++ separator ++ joinWith separator pieces :=
  List.intercalate_cons_of_ne_nil hne

theorem joinWith_append (separator : Text) (hne : pieces ≠ []) (hne' : others ≠ []) :
    joinWith separator (pieces ++ others) =
      joinWith separator pieces ++ separator ++ joinWith separator others := by
  induction pieces with
  | nil => exact absurd rfl hne
  | cons s pieces ih =>
    cases pieces with
    | nil => rw [List.singleton_append, joinWith_cons separator s hne', joinWith_singleton]
    | cons t pieces =>
      rw [List.cons_append, joinWith_cons separator s (by simp), ih (by simp), joinWith_cons_cons]
      simp only [List.append_assoc]

theorem joinWith_splitOn_replaced (c d : Char) (t : Text) :
    joinWith [d] (t.splitOn c) = t.map fun x => if x == c then d else x := by
  induction t with
  | nil => simp [joinWith_singleton]
  | cons x t ih =>
    rw [List.map_cons, ← ih, List.splitOn_cons_eq_if_modifyHead]
    cases ht : t.splitOn c with
    | nil => exact absurd ht (List.splitOn_ne_nil c t)
    | cons first rest =>
      split
      · rw [joinWith_cons [d] [] (by simp)]
        rfl
      · rw [List.modifyHead_cons]
        cases rest with
        | nil => simp only [joinWith_singleton]
        | cons second rest => simp only [joinWith_cons_cons, List.cons_append]

end Mediation.Text
