import Mediation.Proofs.Text.Letters
import Mediation.Proofs.Version.Snapshot

/-! # Spellings of one version

The case of ASCII letters makes no difference to a version, and neither do parts without weight
at its end: zeros and words for a release, behind dots or hyphens. Wherever such a part goes, to
the numbers or to the qualifiers, it is dropped again.
-/

namespace Mediation

namespace Version

variable {s t : Text}

namespace Token

def lower (t : Token) : Token := ⟨t.separator, t.text.lower⟩

theorem prepend_lower (c : Char) (ts : List Token) :
    prepend c.toLower (ts.map lower) = (prepend c ts).map lower := by
  cases ts <;> simp [prepend, lower]

theorem toLower_eq_iff {c d : Char} (hd : d.isAlpha = false) : c.toLower = d ↔ c = d := by
  constructor
  · rintro rfl
    exact (Text.eq_of_not_isAlpha_toLower hd).symm
  · rintro rfl
    exact Text.toLower_of_not_isAlpha hd

theorem endsBefore_lower (c : Char) (t : Text) : endsBefore c.toLower t.lower = endsBefore c t := by
  cases t with
  | nil => rfl
  | cons d t =>
    have hdot : (d.toLower != '.') = (d != '.') := by
      rw [Bool.eq_iff_iff, bne_iff_ne, bne_iff_ne, ne_eq, toLower_eq_iff (by decide)]
    have hhyphen : (d.toLower != '-') = (d != '-') := by
      rw [Bool.eq_iff_iff, bne_iff_ne, bne_iff_ne, ne_eq, toLower_eq_iff (by decide)]
    simp only [Text.lower_cons, endsBefore, Text.isDigit_toLower, hdot, hhyphen]

theorem splitAfter_lower (separator : Separator) (t : Text) :
    splitAfter separator t.lower = (splitAfter separator t).map lower := by
  induction t generalizing separator with
  | nil => rfl
  | cons c t ih =>
    have hdot : c.toLower = '.' ↔ c = '.' := toLower_eq_iff (by decide)
    have hhyphen : c.toLower = '-' ↔ c = '-' := toLower_eq_iff (by decide)
    simp only [Text.lower_cons, splitAfter, hdot, hhyphen, endsBefore_lower, ih]
    split_ifs
    · rfl
    · rfl
    · rfl
    · exact prepend_lower c _

end Token

theorem Item.ofToken_lower (token : Text) (follows : Bool) :
    ofToken token.lower follows = ofToken token follows := by
  have hn : Text.isNumeric token.lower = Text.isNumeric token := by
    rw [Text.isNumeric, Text.isNumeric, Text.all_isDigit_lower]
    cases token <;> rfl
  unfold ofToken
  rw [hn]
  split
  · rename_i hd
    have hd : token.all Char.isDigit = true := (Bool.and_eq_true_iff.mp hd).2
    rw [Text.lower_of_digits (Text.all_isDecimalDigit hd)]
  · rw [ofWord, ofWord, Text.lower_lower]

theorem digitFollows_lower (ts : List Token) :
    digitFollows (ts.map Token.lower) = digitFollows ts := by
  cases ts with
  | nil => rfl
  | cons t ts =>
    rw [List.map_cons, digitFollows, digitFollows, Token.lower, Text.lower, List.head?_map,
      Option.any_map]
    simp only [Text.isDigit_toLower]

theorem takeNumbers_lower (ts : List Token) : takeNumbers (ts.map Token.lower) =
    ((takeNumbers ts).1, (takeNumbers ts).2.map Token.lower) := by
  induction ts with
  | nil => rfl
  | cons t ts ih =>
    simp only [List.map_cons, takeNumbers, ih, Token.lower, Text.all_isDigit_lower]
    split_ifs with h
    · have hd : t.text.all Char.isDigit = true := (Bool.and_eq_true_iff.mp h).2
      rw [Text.lower_of_digits (Text.all_isDecimalDigit hd)]
    · rfl

theorem itemsOf_lower (ts : List Token) : itemsOf (ts.map Token.lower) = itemsOf ts := by
  induction ts with
  | nil => rfl
  | cons t ts ih =>
    have he : t.text.lower.isEmpty = t.text.isEmpty := by cases t.text <;> rfl
    rw [List.map_cons, itemsOf, itemsOf, digitFollows_lower, ih]
    simp only [Token.lower, he, Item.ofToken_lower]

theorem Rank.ofPlain_lower (t : Text) : ofPlain t.lower = ofPlain t := by
  simp only [ofPlain, Text.trim_lower, Token.split, Token.splitAfter_lower, takeNumbers_lower,
    itemsOf_lower]

end Version

namespace Build

variable {s t : Text} {b : Build}

def tail (b : Build) : Text := '-' :: b.day ++ '.' :: b.time ++ '-' :: b.number

theorem text_eq (b : Build) : b.text = b.base ++ b.tail := by
  simp [text, tail]

theorem not_isAlpha_of_mem_tail (hp : b.isProper = true) : ∀ c ∈ b.tail, c.isAlpha = false := by
  simp only [isProper, Bool.and_eq_true, beq_iff_eq, List.all_eq_true] at hp
  intro c hc
  simp only [tail, List.mem_append, List.mem_cons] at hc
  rcases hc with ((rfl | hc) | rfl | hc) | rfl | hc
  · rfl
  · exact Text.not_isAlpha_of_isDecimalDigit (hp.1.1.1.1.2 c hc)
  · rfl
  · exact Text.not_isAlpha_of_isDecimalDigit (hp.1.1.2 c hc)
  · rfl
  · exact Text.not_isAlpha_of_isDecimalDigit (hp.2 c hc)

theorem isProper_of_lower_eq {base : Text} (h : base.lower = b.base.lower)
    (hp : b.isProper = true) : isProper { b with base := base } = true := by
  have hline : base.contains '\n' = b.base.contains '\n' := by
    have hmem (u : Text) : '\n' ∈ u ↔ '\n' ∈ u.lower := by
      rw [Text.lower, List.mem_map]
      constructor
      · exact fun hu => ⟨_, hu, by decide⟩
      · rintro ⟨c, hc, he⟩
        exact (Version.Token.toLower_eq_iff (by decide)).mp he ▸ hc
    rw [Bool.eq_iff_iff, List.contains_iff_mem, List.contains_iff_mem, hmem, hmem b.base, h]
  unfold isProper at hp ⊢
  rw [hline]
  exact hp

/-- Texts that differ in the case of letters name builds that differ in their base only. -/
theorem read?_of_lower_eq (h : s.lower = t.lower) (hb : read? t = some b) :
    ∃ base, read? s = some { b with base := base } ∧ base.lower = b.base.lower := by
  obtain ⟨hp, rfl⟩ := read?_eq_some_iff.mp hb
  rw [text_eq, Text.lower_append] at h
  obtain ⟨base, tail, rfl, hbase, htail⟩ := List.map_eq_append_iff.mp h
  have hlower : b.tail.lower = b.tail := Text.lower_of_not_isAlpha (not_isAlpha_of_mem_tail hp)
  obtain rfl : tail = b.tail :=
    Text.eq_of_lower_eq (Eq.trans htail hlower) (not_isAlpha_of_mem_tail hp)
  refine ⟨base, read?_eq_some_iff.mpr ⟨isProper_of_lower_eq hbase hp, ?_⟩, hbase⟩
  rw [text_eq, tail, tail]

end Build

namespace Version

variable {s t u : Text} {g : Token}

theorem Rank.ofText_of_lower_eq (h : s.lower = t.lower) : ofText s = ofText t := by
  have hplain {u v : Text} (huv : u.lower = v.lower) : ofPlain u = ofPlain v := by
    rw [← ofPlain_lower u, huv, ofPlain_lower]
  cases hb : Build.read? t with
  | some b =>
    obtain ⟨base, hs, hbase⟩ := Build.read?_of_lower_eq h hb
    simp only [ofText, hs, hb, hplain hbase]
  | none =>
    have hs : Build.read? s = none := by
      refine Option.eq_none_iff_forall_ne_some.mpr fun b hs => ?_
      obtain ⟨base, ht, -⟩ := Build.read?_of_lower_eq h.symm hs
      simp [hb] at ht
    rw [ofText_of_plain hs, ofText_of_plain hb, hplain h]

def releaseWords : List Text := ["ga", "final", "release"]

namespace Token

/-- Whether a token has no weight at the end of a version: it consists of zeros or is a word for a
release, behind a dot or a hyphen. -/
structure IsWeightless (g : Token) : Prop where
  separator : g.separator = .dot ∨ g.separator = .hyphen
  text : (∀ c ∈ g.text, c = '0') ∨ g.text.lower ∈ releaseWords

namespace IsWeightless

variable (h : g.IsWeightless)
include h

theorem exists_separator : ∃ c, g.separator.text = [c] ∧ Text.isBlank c = false := by
  rcases h.separator with hs | hs <;> rw [hs]
  · exact ⟨'.', rfl, by decide⟩
  · exact ⟨'-', rfl, by decide⟩

theorem characters : (∀ c ∈ g.text, c = '0') ∨ ∀ c ∈ g.text, c.isAlpha = true := by
  refine h.text.imp_right fun hw c hc => ?_
  have hletters : ∀ w ∈ releaseWords, w.all Char.isAlpha = true := by decide
  rw [← Char.isAlpha_toLower_eq_isAlpha]
  exact List.all_eq_true.mp (hletters _ hw) _ (List.mem_map_of_mem hc)

theorem exists_isUniform : ∃ digits, IsUniform digits g.text := by
  rcases h.characters with hz | ha
  · refine ⟨true, fun hm => ?_, fun hm => ?_, fun c hc => ?_⟩
    · exact absurd (hz _ hm) (by decide)
    · exact absurd (hz _ hm) (by decide)
    · rw [hz c hc]
      decide
  · refine ⟨false, fun hm => ?_, fun hm => ?_, fun c hc => ?_⟩
    · exact absurd (ha _ hm) (by decide)
    · exact absurd (ha _ hm) (by decide)
    · refine Bool.eq_false_iff.mpr fun hd => ?_
      have hdecimal := Text.not_isAlpha_of_isDecimalDigit (Text.isDecimalDigit_of_isDigit hd)
      simp [ha c hc] at hdecimal

theorem isTight_text : g.text.IsTight := by
  have hblank : ∀ c ∈ g.text, Text.isBlank c = false := by
    intro c hc
    rcases h.characters with hz | ha
    · rw [hz c hc]
      decide
    · exact Text.not_isBlank_of_isAlpha (ha c hc)
  exact ⟨fun c hc => hblank c (List.mem_of_mem_head? hc),
    fun c hc => hblank c (List.mem_of_mem_getLast? hc)⟩

theorem value_text (hd : g.text.all Char.isDigit = true) : Text.value g.text = 0 := by
  rcases h.text with hz | hw
  · rw [List.eq_replicate_of_mem hz, Text.value, Nat.ofDigitChars_replicate_zero, Nat.mul_zero]
  · have hnone : ∀ w ∈ releaseWords, w.all Char.isDigit = false := by decide
    rw [← Text.all_isDigit_lower, hnone _ hw] at hd
    cases hd

theorem isNoise_ofToken (follows : Bool) : (Item.ofToken g.text follows).isNoise = true := by
  unfold Item.ofToken
  split
  · rename_i hn
    rw [h.value_text (Bool.and_eq_true_iff.mp hn).2]
    rfl
  · rename_i hn
    have hknown : ∀ w ∈ ([] :: releaseWords), Item.known.lookup w = some .release := by decide
    have hmem : g.text.lower ∈ [] :: releaseWords := by
      refine h.text.elim (fun hz => ?_) (List.mem_cons_of_mem _)
      have hd : g.text.all Char.isDigit = true :=
        List.all_eq_true.mpr fun c hc => hz c hc ▸ (by decide : '0'.isDigit = true)
      have hempty : g.text = [] := by simpa [Text.isNumeric, hd] using hn
      rw [hempty]
      exact List.mem_cons_self
    simp only [Item.ofWord, hknown _ hmem]
    rfl

/-- Such a token behind others is a zero among the numbers, or goes to the qualifiers. -/
theorem takeNumbers_append (ts : List Token) : ∃ zeros rest,
    takeNumbers (ts ++ [g]) = ((takeNumbers ts).1 ++ zeros, (takeNumbers ts).2 ++ rest) ∧
      (∀ n ∈ zeros, n = 0) ∧ (rest = [] ∨ rest = [g]) := by
  rw [Version.takeNumbers_append]
  split
  · rename_i hr
    rw [hr, takeNumbers]
    split
    · rename_i hd
      have hzero := h.value_text (Bool.and_eq_true_iff.mp hd).2
      exact ⟨_, _, rfl, by simp [takeNumbers, hzero], .inl rfl⟩
    · exact ⟨_, _, rfl, by simp, .inr rfl⟩
  · exact ⟨[], [g], by rw [List.append_nil], by simp, .inr rfl⟩

end IsWeightless

end Token

theorem dropLastWhile_append {α : Type} {p : α → Bool} {ys : List α} (xs : List α)
    (h : ∀ y ∈ ys, p y = true) : dropLastWhile p (xs ++ ys) = dropLastWhile p xs := by
  have hrev : ∀ y ∈ ys.reverse, p y = true := fun y hy => h y (List.mem_reverse.mp hy)
  rw [dropLastWhile, List.reverse_append, List.dropWhile_append_of_pos hrev, dropLastWhile]

namespace Rank

theorem ofPlain_append (ht : t.IsTight) (hg : g.IsWeightless) :
    (t ++ Token.unsplit [g]).IsTight ∧ ofPlain (t ++ Token.unsplit [g]) = ofPlain t := by
  obtain ⟨c, hc, hblank⟩ := hg.exists_separator
  have htext : t ++ Token.unsplit [g] = t ++ c :: g.text := by simp [Token.unsplit, hc]
  have htight : (t ++ c :: g.text).IsTight := ht.append_cons hblank hg.isTight_text
  obtain ⟨_, huniform⟩ := hg.exists_isUniform
  have hsplit : Token.split (t ++ c :: g.text) = Token.split t ++ [g] := by
    rw [Token.split, Token.splitAfter_append _ _ _ _ hc, Token.splitAfter_of_isUniform huniform,
      Token.split]
  rw [htext]
  refine ⟨htight, ?_⟩
  obtain ⟨zeros, rest, htake, hzeros, hrest⟩ := hg.takeNumbers_append (Token.split t)
  have hnumbers : ∀ n ∈ zeros, (n == 0) = true := fun n hn => beq_iff_eq.mpr (hzeros n hn)
  have hitems : dropLastWhile Item.isNoise (itemsOf ((takeNumbers (Token.split t)).2 ++ rest)) =
      dropLastWhile Item.isNoise (itemsOf (takeNumbers (Token.split t)).2) := by
    rcases hrest with rfl | rfl
    · rw [List.append_nil]
    · have hsep : g.separator ≠ .transition := by
        rcases hg.separator with hs | hs <;> simp [hs]
      rw [itemsOf_append _ _ hsep, dropLastWhile_append]
      intro x hx
      rw [itemsOf] at hx
      split at hx
      · cases hx
      · rw [itemsOf, List.mem_singleton] at hx
        exact hx ▸ hg.isNoise_ofToken _
  simp only [ofPlain, htight.trim_eq, ht.trim_eq, hsplit, htake, hitems,
    dropLastWhile_append _ hnumbers]

theorem ofPlain_append_unsplit (ht : t.IsTight) {gs : List Token}
    (hg : ∀ g ∈ gs, g.IsWeightless) : ofPlain (t ++ Token.unsplit gs) = ofPlain t := by
  induction gs generalizing t with
  | nil => rw [Token.unsplit, List.flatMap_nil, List.append_nil]
  | cons g gs ih =>
    obtain ⟨hfirst, hothers⟩ := List.forall_mem_cons.mp hg
    obtain ⟨htight, hplain⟩ := ofPlain_append ht hfirst
    have htext : t ++ Token.unsplit (g :: gs) = t ++ Token.unsplit [g] ++ Token.unsplit gs := by
      simp [Token.unsplit]
    rw [htext, ih htight hothers, hplain]

end Rank

/-- Parts without weight behind a version make no difference to it, unless they make a build of it
or it is one, and neither does the case of letters. -/
theorem spellings_are_same :
    (∀ (t : Text) (gs : List Token), t.IsTight → (∀ g ∈ gs, g.IsWeightless) →
      isTimestamped ⟨t⟩ = false → isTimestamped ⟨t ++ Token.unsplit gs⟩ = false →
      same ⟨t ++ Token.unsplit gs⟩ ⟨t⟩ = true) ∧
    ∀ s t : Text, s.sameLetters t = true → same ⟨s⟩ ⟨t⟩ = true := by
  constructor
  · intro t gs ht hg hplain hpadded
    rw [same, rank_of_plain hplain, rank_of_plain hpadded, Rank.ofPlain_append_unsplit ht hg]
    exact beq_self_eq_true _
  · intro s t h
    have hrank : rank ⟨s⟩ = rank ⟨t⟩ := Rank.ofText_of_lower_eq (beq_iff_eq.mp h)
    rw [same, hrank]
    exact beq_self_eq_true _

/-- A milestone with zeros and a release word behind it, and with its letter in upper case. -/
theorem spellings_are_same_of_milestone :
    same ⟨("1-m3" : Text) ++ ".00-Final".toList⟩ ⟨"1-m3"⟩ = true ∧
      same ⟨"1-M3"⟩ ⟨"1-m3"⟩ = true := by
  obtain ⟨hpadding, hletters⟩ := spellings_are_same
  have ht : Text.IsTight "1-m3" := .of_ends (c := '1') (d := '3') rfl rfl rfl rfl
  have hzeros : Token.IsWeightless ⟨.dot, "00"⟩ := ⟨.inl rfl, .inl (by simp)⟩
  have hword : Token.IsWeightless ⟨.hyphen, "Final"⟩ := ⟨.inr rfl, .inr (by decide +kernel)⟩
  have hg : ∀ g ∈ [(⟨.dot, "00"⟩ : Token), ⟨.hyphen, "Final"⟩], g.IsWeightless := by
    simpa using ⟨hzeros, hword⟩
  exact ⟨hpadding "1-m3" _ ht hg (by decide +kernel) (by decide +kernel),
    hletters "1-M3" "1-m3" (by decide +kernel)⟩

end Version

end Mediation
