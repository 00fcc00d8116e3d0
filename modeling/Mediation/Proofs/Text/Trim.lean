import Mathlib.Data.List.TakeWhile
import Mediation.Text.Blank

/-! # Trimmed texts

A text without a blank at either end is what trimming leaves, and trimming it again
changes nothing. A text is cut at the first place of a character, so a character that the
text before it lacks marks where to cut.
-/

namespace Mediation.Text

variable {c : Char} {s t : Text}

structure IsTight (t : Text) : Prop where
  head : ∀ c ∈ t.head?, isBlank c = false
  last : ∀ c ∈ t.getLast?, isBlank c = false

theorem trimStart_eq_self (h : ∀ c ∈ t.head?, isBlank c = false) : t.trimStart = t := by
  cases t with
  | nil => rfl
  | cons c t => simp [trimStart, h c rfl]

theorem trimEnd_eq_self (h : ∀ c ∈ t.getLast?, isBlank c = false) : t.trimEnd = t := by
  have hs : trimStart t.reverse = t.reverse := trimStart_eq_self (by simpa using h)
  rw [trimEnd, ← trimStart, hs, List.reverse_reverse]

theorem head?_trimStart : ∀ c ∈ t.trimStart.head?, isBlank c = false := by
  intro c hc
  have := List.head?_dropWhile_not isBlank t
  rw [Option.mem_def] at hc
  rw [trimStart] at hc
  rw [hc] at this
  simpa using this

theorem getLast?_trimEnd : ∀ c ∈ t.trimEnd.getLast?, isBlank c = false := by
  intro c hc
  refine head?_trimStart (t := t.reverse) c ?_
  simpa [trimEnd, trimStart] using hc

theorem trimStart_isSuffix (t : Text) : t.trimStart <:+ t := List.dropWhile_suffix isBlank

theorem trimEnd_isPrefix (t : Text) : t.trimEnd <+: t := by
  rw [← List.reverse_suffix, trimEnd, List.reverse_reverse]
  exact List.dropWhile_suffix isBlank

theorem trimEnd_append (h : ∀ b ∈ s, isBlank b = true) : (t ++ s).trimEnd = t.trimEnd := by
  have hs : ∀ b ∈ s.reverse, isBlank b = true := by simpa using h
  simp [trimEnd, List.dropWhile_append_of_pos hs]

theorem trim_append (hne : t ≠ []) (ht : ∀ c ∈ t.head?, isBlank c = false)
    (h : ∀ b ∈ s, isBlank b = true) : (t ++ s).trim = t.trimEnd := by
  have hstart : (t ++ s).trimStart = t ++ s := by
    apply trimStart_eq_self
    simpa [hne] using ht
  rw [trim, hstart, trimEnd_append h]

theorem exists_eq_trim_append (h : ∀ c ∈ t.head?, isBlank c = false) :
    ∃ s, (∀ b ∈ s, isBlank b = true) ∧ t = t.trim ++ s := by
  refine ⟨(t.reverse.takeWhile isBlank).reverse, ?_, ?_⟩
  · intro b hb
    exact List.mem_takeWhile_imp (List.mem_reverse.mp hb)
  · rw [trim, trimStart_eq_self h, trimEnd, ← List.reverse_append, List.takeWhile_append_dropWhile,
      List.reverse_reverse]

theorem mem_of_mem_trim (h : c ∈ t.trim) : c ∈ t :=
  (trimStart_isSuffix t).subset ((trimEnd_isPrefix _).subset h)

namespace IsTight

theorem trim_eq (h : t.IsTight) : t.trim = t := by
  rw [trim, trimStart_eq_self h.head, trimEnd_eq_self h.last]

theorem nil : IsTight [] := ⟨nofun, nofun⟩

theorem of_ends {d : Char} (hc : t.head? = some c) (hd : t.getLast? = some d)
    (h : isBlank c = false) (h' : isBlank d = false) : t.IsTight where
  head e he := by
    rw [Option.mem_def, hc] at he
    exact Option.some.inj he ▸ h
  last e he := by
    rw [Option.mem_def, hd] at he
    exact Option.some.inj he ▸ h'

theorem append_cons (hs : s.IsTight) (hc : isBlank c = false) (ht : t.IsTight) :
    (s ++ c :: t).IsTight where
  head d hd := by
    cases s with
    | nil => simp_all
    | cons e s => exact hs.head d (by simpa using hd)
  last d hd := by
    rw [List.getLast?_append, List.getLast?_cons, Option.some_or, Option.mem_some_iff] at hd
    cases hl : t.getLast? with
    | none => simpa [← hd, hl] using hc
    | some e => exact ht.last d (by simp [← hd, hl])

end IsTight

theorem isTight_trim (t : Text) : t.trim.IsTight where
  head c hc := by
    obtain ⟨u, hu⟩ := trimEnd_isPrefix t.trimStart
    refine head?_trimStart (t := t) c ?_
    rw [← hu, List.head?_append]
    rw [trim, Option.mem_def] at hc
    simp [hc]
  last := getLast?_trimEnd

theorem trim_trim (t : Text) : t.trim.trim = t.trim := (isTight_trim t).trim_eq

theorem cutAt_append_cons (h : c ∉ s) : cutAt c (s ++ c :: t) = some (s, t) := by
  have hs : ∀ d ∈ s, (d != c) = true := fun d hd => by simpa using fun he : d = c => h (he ▸ hd)
  simp [cutAt, List.dropWhile_append_of_pos hs, List.takeWhile_append_of_pos hs]

theorem cutAt_eq_none_iff : cutAt c t = none ↔ c ∉ t := by
  constructor
  · intro h hc
    obtain ⟨s, u, rfl, hs⟩ := List.eq_append_cons_of_mem hc
    simp [cutAt_append_cons hs] at h
  · intro h
    have hd : t.dropWhile (· != c) = [] := by
      rw [List.dropWhile_eq_nil_iff]
      intro d hd
      simpa using fun he : d = c => h (he ▸ hd)
    simp [cutAt, hd]

theorem eq_of_cutAt {u : Text} (h : cutAt c t = some (s, u)) : t = s ++ c :: u ∧ c ∉ s := by
  have hc : c ∈ t := by
    by_contra hc
    simp [cutAt_eq_none_iff.mpr hc] at h
  obtain ⟨s', u', rfl, hs⟩ := List.eq_append_cons_of_mem hc
  rw [cutAt_append_cons hs] at h
  cases h
  exact ⟨rfl, hs⟩

theorem joinWith_singleton (separator t : Text) : joinWith separator [t] = t := by
  simp [joinWith]

theorem joinWith_cons_cons (separator s t : Text) (ts : List Text) :
    joinWith separator (s :: t :: ts) = s ++ separator ++ joinWith separator (t :: ts) := by
  simp [joinWith, List.intercalate]

end Mediation.Text
