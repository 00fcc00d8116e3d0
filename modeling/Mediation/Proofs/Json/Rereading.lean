import Mathlib.Data.List.Basic
import Mathlib.Data.Option.Basic
import Mediation.Json.Printer
import Mediation.Json.Reader

/-! # What is printed is read

The reader takes the printed form of a value for that value, whatever stands behind it, unless the
value ends in a number and more of a number stands there. Only the spelling of a number has to be
one that the reader accepts; a string may hold any characters, a name may stand in an object several
times. The fuel that the reader starts with is enough, as each step of it consumes a character.
-/

namespace Mediation.Json

variable {c : Char} {s t rest : Text} {fuel depth : Nat} {ps : List Piece}

/-- Whether a character stands in a string as the escape of its code point. -/
def isUnitEscaped (c : Char) : Bool :=
  c.toNat < 0x20 && c != '\n' && c != '\r' && c != '\t' && c != '\x08' && c != '\x0c'

def Piece.ofChar (c : Char) : Piece := if isUnitEscaped c then .unit c.toNat else .char c

theorem unit?_hexDigit {n : Nat} (h : n < 0x20) :
    unit? '0' '0' (hexDigit (n / 16)) (hexDigit (n % 16)) = some n := by
  have hall : ∀ m < 0x20, unit? '0' '0' (hexDigit (m / 16)) (hexDigit (m % 16)) = some m := by
    decide
  exact hall n h

theorem guard_eq {p : Prop} [Decidable p] (h : p) : (guard p : Option Unit) = some () := if_pos h

theorem pieces?_cons (hquote : c ≠ '"') (hslash : c ≠ '\\') (hcontrol : 0x20 ≤ c.toNat)
    (h : pieces? rest = some (ps, t)) : pieces? (c :: rest) = some (.char c :: ps, t) := by
  rw [pieces?, guard_eq hcontrol, h]
  · rfl
  · simpa using hquote
  · simp [hslash]
  · simp [hslash]

theorem pieces?_letter {letter : Char} (hletter : escaped? letter = some c)
    (h : pieces? rest = some (ps, t)) :
    pieces? ('\\' :: letter :: rest) = some (.char c :: ps, t) := by
  have hu : letter ≠ 'u' := by
    rintro rfl
    cases hletter
  rw [pieces?, hletter, h]
  · rfl
  · exact fun _ _ _ _ _ heq => absurd heq hu

theorem pieces?_unit {a b d e : Char} {n : Nat} (hunit : unit? a b d e = some n)
    (h : pieces? rest = some (ps, t)) :
    pieces? ('\\' :: 'u' :: a :: b :: d :: e :: rest) = some (.unit n :: ps, t) := by
  rw [pieces?, hunit, h]
  rfl

theorem pieces?_escape (c : Char) (h : pieces? rest = some (ps, t)) :
    pieces? (escape c ++ rest) = some (.ofChar c :: ps, t) := by
  unfold escape
  split_ifs with hquote hslash hline hreturn htab hback hfeed hcontrol
  · obtain rfl := eq_of_beq hquote
    exact pieces?_letter rfl h
  · obtain rfl := eq_of_beq hslash
    exact pieces?_letter rfl h
  · obtain rfl := eq_of_beq hline
    exact pieces?_letter rfl h
  · obtain rfl := eq_of_beq hreturn
    exact pieces?_letter rfl h
  · obtain rfl := eq_of_beq htab
    exact pieces?_letter rfl h
  · obtain rfl := eq_of_beq hback
    exact pieces?_letter rfl h
  · obtain rfl := eq_of_beq hfeed
    exact pieces?_letter rfl h
  · have hpiece : Piece.ofChar c = .unit c.toNat := by simp_all [Piece.ofChar, isUnitEscaped]
    rw [hpiece]
    exact pieces?_unit (unit?_hexDigit hcontrol) h
  · have hpiece : Piece.ofChar c = .char c := by
      rw [Piece.ofChar, if_neg (by simp [isUnitEscaped, hcontrol])]
    rw [hpiece]
    exact pieces?_cons (by simpa using hquote) (by simpa using hslash) (Nat.not_lt.mp hcontrol) h

theorem pieces?_flatMap_escape (s rest : Text) :
    pieces? (s.flatMap escape ++ '"' :: rest) = some (s.map .ofChar, rest) := by
  induction s with
  | nil => rfl
  | cons c s ih =>
    rw [List.flatMap_cons, List.append_assoc, List.map_cons]
    exact pieces?_escape c ih

theorem join?_alone {n : Nat} (hps : ∀ low rest, ps ≠ .unit low :: rest)
    (halone : (!isHighSurrogate n && !isLowSurrogate n) = true) :
    join? (.unit n :: ps) = (join? ps).map (Char.ofNat n :: ·) := by
  rw [join?, guard_eq halone]
  · exact Option.map_eq_bind.symm
  · exact fun low rest heq => hps low rest heq

theorem join?_unit {n : Nat} (h : n < 0x20) :
    join? (.unit n :: ps) = (join? ps).map (Char.ofNat n :: ·) := by
  have hhigh : isHighSurrogate n = false := by
    simp only [isHighSurrogate, Bool.and_eq_false_iff, decide_eq_false_iff_not]
    omega
  have hlow : isLowSurrogate n = false := by
    simp only [isLowSurrogate, Bool.and_eq_false_iff, decide_eq_false_iff_not]
    omega
  by_cases hpair : ∃ low rest, ps = .unit low :: rest
  · obtain ⟨low, rest, rfl⟩ := hpair
    rw [join?, if_neg (by simp [hhigh]), guard_eq (by simp [hlow])]
    exact Option.map_eq_bind.symm
  · apply join?_alone
    · simpa using hpair
    · simp [hhigh, hlow]

theorem join?_map_ofChar (s : Text) : join? (s.map .ofChar) = some s := by
  induction s with
  | nil => rfl
  | cons c s ih =>
    rw [List.map_cons, Piece.ofChar]
    split
    · rename_i h
      have hcontrol : c.toNat < 0x20 := by simp_all [isUnitEscaped]
      rw [join?_unit hcontrol, ih, Option.map_some, Char.ofNat_toNat]
    · rw [join?, ih, Option.map_some]

theorem skip_cons (h : isBlank c = false) (t : Text) : skip (c :: t) = c :: t := by
  simp [skip, h]

theorem skip_lineAt (depth : Nat) (t : Text) : skip (lineAt depth ++ t) = skip t := by
  have hblank : ∀ c ∈ lineAt depth, isBlank c = true := by
    intro c hc
    rcases List.mem_cons.mp hc with rfl | hc
    · rfl
    · obtain rfl := List.eq_of_mem_replicate hc
      rfl
  exact List.dropWhile_append_of_pos hblank

theorem value?_congr (h : skip s = skip t) : value? fuel s = value? fuel t := by
  cases fuel with
  | zero => rfl
  | succ fuel => rw [value?, value?, h]

structure IsSpelling (s : Text) : Prop where
  number : isNumber s = true
  chars : ∀ c ∈ s, isNumberChar c = true

/-- Whether no number that ends in front of a text goes on in it. -/
def Ends (rest : Text) : Prop := ∀ c ∈ rest.head?, isNumberChar c = false

theorem Ends.nil : Ends [] := by simp [Ends]

theorem Ends.cons (h : isNumberChar c = false) (t : Text) : Ends (c :: t) := by simpa [Ends] using h

theorem Ends.lineAt (depth : Nat) (t : Text) : Ends (lineAt depth ++ t) := .cons rfl _

theorem IsSpelling.ne_nil (h : IsSpelling s) : s ≠ [] := by
  rintro rfl
  cases h.number

theorem number?_append (h : IsSpelling s) (hrest : Ends rest) :
    number? (s ++ rest) = some (number s, rest) := by
  have hnone : rest.takeWhile isNumberChar = [] ∧ rest.dropWhile isNumberChar = rest := by
    cases rest with
    | nil => exact ⟨rfl, rfl⟩
    | cons c rest =>
      have hc : isNumberChar c = false := hrest c rfl
      simp [hc]
  rw [number?, List.takeWhile_append_of_pos h.chars, List.dropWhile_append_of_pos h.chars, hnone.1,
    hnone.2, List.append_nil]
  exact if_pos h.number

theorem value?_number (h : IsSpelling s) (hrest : Ends rest) :
    value? (fuel + 1) (s ++ rest) = some (number s, rest) := by
  have hread := number?_append h hrest
  cases s with
  | nil => exact absurd rfl h.ne_nil
  | cons c s =>
    have hc : isNumberChar c = true := h.chars c List.mem_cons_self
    have hblank : isBlank c = false := by
      by_contra hb
      simp only [isBlank, Bool.not_eq_false, Bool.or_eq_true, beq_iff_eq] at hb
      rcases hb with ((rfl | rfl) | rfl) | rfl <;> cases hc
    rw [List.cons_append] at hread ⊢
    rw [value?, skip_cons hblank]
    split
    case h_7 => exact hread
    all_goals
      rename_i heq
      obtain rfl := (List.cons.inj heq).1
      cases hc

theorem quoted_append (t rest : Text) :
    quoted t ++ rest = '"' :: (t.flatMap escape ++ '"' :: rest) := by
  simp [quoted]

theorem prettyAt_string (depth : Nat) (t : Text) : prettyAt depth (string t) = quoted t := rfl

section

variable (depth : Nat) (name : Text) (x : Json) (xs : List Json) (ms : List (Text × Json))

theorem prettyElements_cons : prettyElements depth (x :: xs) =
    ',' :: (lineAt depth ++ (prettyAt depth x ++ prettyElements depth xs)) := by
  have h : prettyElements depth (x :: xs) =
    ',' :: lineAt depth ++ prettyAt depth x ++ prettyElements depth xs := rfl
  simp [h]

theorem prettyMembers_cons : prettyMembers depth ((name, x) :: ms) =
    ',' :: (lineAt depth ++ (quoted name ++ ':' :: ' ' ::
      (prettyAt depth x ++ prettyMembers depth ms))) := by
  have h : prettyMembers depth ((name, x) :: ms) = ',' :: lineAt depth ++ quoted name ++
    [':', ' '] ++ prettyAt depth x ++ prettyMembers depth ms := rfl
  simp [h]

theorem prettyAt_array : prettyAt depth (array (x :: xs)) =
    '[' :: (lineAt (depth + 1) ++ (prettyAt (depth + 1) x ++ (prettyElements (depth + 1) xs ++
      (lineAt depth ++ [']'])))) := by
  have h : prettyAt depth (array (x :: xs)) = '[' :: lineAt (depth + 1) ++
    prettyAt (depth + 1) x ++ prettyElements (depth + 1) xs ++ lineAt depth ++ [']'] := rfl
  simp [h]

theorem prettyAt_object : prettyAt depth (object ((name, x) :: ms)) =
    '\x7b' :: (lineAt (depth + 1) ++ (quoted name ++ ':' :: ' ' :: (prettyAt (depth + 1) x ++
      (prettyMembers (depth + 1) ms ++ (lineAt depth ++ ['\x7d']))))) := by
  have h : prettyAt depth (object ((name, x) :: ms)) = '\x7b' :: lineAt (depth + 1) ++
    quoted name ++ [':', ' '] ++ prettyAt (depth + 1) x ++ prettyMembers (depth + 1) ms ++
      lineAt depth ++ ['\x7d'] := rfl
  simp [h]

end

section Steps

variable {x : Json} {xs : List Json} {ms : List (Option Text × Json)} {left more : Text}

theorem value?_lineAt (fuel depth : Nat) (t : Text) :
    value? fuel (lineAt depth ++ t) = value? fuel t :=
  value?_congr (skip_lineAt depth t)

theorem value?_space (fuel : Nat) (t : Text) : value? fuel (' ' :: t) = value? fuel t :=
  value?_congr rfl

theorem value?_string (h : pieces? rest = some (ps, left)) :
    value? (fuel + 1) ('"' :: rest) = some (ofPieces ps, left) := by
  rw [value?, skip_cons rfl]
  simp [h]

theorem value?_eq_none (h : skip rest = ']' :: t) : value? fuel rest = none := by
  cases fuel with
  | zero => rfl
  | succ fuel =>
    rw [value?, h]
    rfl

theorem value?_array (h : elements? fuel rest = some (xs, left)) :
    value? (fuel + 1) ('[' :: rest) = some (array xs, left) := by
  have hskip : ∀ t, skip rest ≠ ']' :: t := by
    intro t ht
    cases fuel with
    | zero => cases h
    | succ fuel => simp [elements?, value?_eq_none ht] at h
  rw [value?, skip_cons rfl]
  split <;> simp_all

theorem value?_object (h : members? fuel rest = some (ms, left)) :
    value? (fuel + 1) ('\x7b' :: rest) = some (ofMembers ms, left) := by
  have hskip : ∀ t, skip rest ≠ '\x7d' :: t := by
    intro t ht
    cases fuel with
    | zero => cases h
    | succ fuel => simp [members?, ht] at h
  rw [value?, skip_cons rfl]
  split <;> simp_all

theorem elements?_close (hx : value? fuel s = some (x, rest)) (hrest : skip rest = ']' :: left) :
    elements? (fuel + 1) s = some ([x], left) := by
  simp [elements?, hx, hrest]

theorem elements?_comma (hx : value? fuel s = some (x, rest)) (hrest : skip rest = ',' :: more)
    (hxs : elements? fuel more = some (xs, left)) :
    elements? (fuel + 1) s = some (x :: xs, left) := by
  simp [elements?, hx, hrest, hxs]

theorem members?_close (hs : skip s = '"' :: t) (hname : pieces? t = some (ps, ':' :: more))
    (hx : value? fuel more = some (x, rest)) (hrest : skip rest = '\x7d' :: left) :
    members? (fuel + 1) s = some ([(join? ps, x)], left) := by
  simp [members?, hs, hname, skip_cons (c := ':') rfl, hx, hrest]

theorem members?_comma {more' : Text} (hs : skip s = '"' :: t)
    (hname : pieces? t = some (ps, ':' :: more)) (hx : value? fuel more = some (x, rest))
    (hrest : skip rest = ',' :: more') (hms : members? fuel more' = some (ms, left)) :
    members? (fuel + 1) s = some ((join? ps, x) :: ms, left) := by
  simp [members?, hs, hname, skip_cons (c := ':') rfl, hx, hrest, hms]

end Steps

inductive Legible : Json → Prop
  | null : Legible .null
  | bool {b : Bool} : Legible (.bool b)
  | number {s : Text} (h : IsSpelling s) : Legible (.number s)
  | string {t : Text} : Legible (.string t)
  | unpaired : Legible .unpaired
  | array {xs : List Json} (h : ∀ x ∈ xs, Legible x) : Legible (.array xs)
  | object {ms : List (Text × Json)} (h : ∀ m ∈ ms, Legible m.2) : Legible (.object ms)

/-- Whether a value is read from its printed form, wherever it stands. -/
def IsReread (j : Json) : Prop :=
  ∀ (depth fuel : Nat) (rest : Text), Ends rest → 2 * (prettyAt depth j).length + 2 ≤ fuel →
    value? fuel (prettyAt depth j ++ rest) = some (j, rest)

theorem elements?_prettyElements {x : Json} {xs : List Json} {close : Nat}
    (h : ∀ y ∈ x :: xs, IsReread y)
    (hfuel : 2 * ((prettyAt depth x).length + (prettyElements depth xs).length) + 2 ≤ fuel) :
    elements? (fuel + 1) (lineAt depth ++ (prettyAt depth x ++ (prettyElements depth xs ++
      (lineAt close ++ ']' :: rest)))) = some (x :: xs, rest) := by
  have hx := h x List.mem_cons_self depth fuel
  induction xs generalizing x fuel with
  | nil =>
    apply elements?_close
    · rw [value?_lineAt]
      exact hx _ (.lineAt close _) (by omega)
    · exact skip_lineAt close _
  | cons y xs ih =>
    rw [prettyElements_cons] at hfuel
    simp only [List.length_cons, List.length_append] at hfuel
    obtain ⟨fuel, rfl⟩ := Nat.exists_eq_succ_of_ne_zero (by omega : fuel ≠ 0)
    have hxs : ∀ y' ∈ y :: xs, IsReread y' := fun z hz => h z (List.mem_cons_of_mem x hz)
    rw [prettyElements_cons]
    simp only [List.cons_append, List.append_assoc]
    apply elements?_comma
    · rw [value?_lineAt]
      exact hx _ (.cons rfl _) (by omega)
    · rw [skip_cons rfl]
    · exact ih hxs (by omega) (hxs y List.mem_cons_self depth fuel)

theorem members?_prettyMembers {name : Text} {x : Json} {ms : List (Text × Json)} {close : Nat}
    (h : ∀ m ∈ (name, x) :: ms, IsReread m.2)
    (hfuel : 2 * ((prettyAt depth x).length + (prettyMembers depth ms).length) + 2 ≤ fuel) :
    members? (fuel + 1) (lineAt depth ++ (quoted name ++ ':' :: ' ' :: (prettyAt depth x ++
      (prettyMembers depth ms ++ (lineAt close ++ '\x7d' :: rest))))) =
        some (((name, x) :: ms).map fun m => (some m.1, m.2), rest) := by
  have hx := h (name, x) List.mem_cons_self depth fuel
  have hname := pieces?_flatMap_escape name
  induction ms generalizing name x fuel with
  | nil =>
    rw [List.map_singleton, ← join?_map_ofChar name]
    apply members?_close
    · rw [skip_lineAt, quoted_append, skip_cons rfl]
    · exact hname _
    · rw [value?_space]
      exact hx _ (.lineAt close _) (by simp only; omega)
    · exact skip_lineAt close _
  | cons m ms ih =>
    obtain ⟨name', y⟩ := m
    rw [prettyMembers_cons] at hfuel
    simp only [List.length_cons, List.length_append] at hfuel
    obtain ⟨fuel, rfl⟩ := Nat.exists_eq_succ_of_ne_zero (by omega : fuel ≠ 0)
    have hms : ∀ m ∈ (name', y) :: ms, IsReread m.2 := fun m hm => h m (List.mem_cons_of_mem _ hm)
    rw [List.map_cons, ← join?_map_ofChar name, prettyMembers_cons]
    simp only [List.cons_append, List.append_assoc]
    apply members?_comma
    · rw [skip_lineAt, quoted_append, skip_cons rfl]
    · exact hname _
    · rw [value?_space]
      exact hx _ (.cons rfl _) (by simp only; omega)
    · rw [skip_cons rfl]
    · exact ih hms (by omega) (hms _ List.mem_cons_self depth fuel) (pieces?_flatMap_escape name')

theorem ofMembers_map (ms : List (Text × Json)) :
    ofMembers (ms.map fun m => (some m.1, m.2)) = object ms := by
  have hnames : (ms.map fun m => (some m.1, m.2)).mapM
      (fun m : Option Text × Json => m.1.map (·, m.2)) = some ms := by
    induction ms with
    | nil => rfl
    | cons m ms ih => simp_all
  rw [ofMembers]
  simp only [hnames]

theorem isReread_of_succ {j : Json} (h : ∀ depth fuel rest, Ends rest →
    value? (fuel + 1) (prettyAt depth j ++ rest) = some (j, rest)) : IsReread j := by
  intro depth fuel rest hrest hfuel
  obtain ⟨fuel, rfl⟩ := Nat.exists_eq_add_of_le' (by omega : 1 ≤ fuel)
  exact h depth fuel rest hrest

theorem isReread_string (t : Text) : IsReread (string t) := by
  apply isReread_of_succ
  intro depth fuel rest _
  rw [prettyAt_string, quoted_append, value?_string (pieces?_flatMap_escape t rest), ofPieces,
    join?_map_ofChar]

theorem isReread_array {xs : List Json} (h : ∀ x ∈ xs, IsReread x) : IsReread (array xs) := by
  intro depth fuel rest _ hfuel
  obtain ⟨fuel, rfl⟩ := Nat.exists_eq_add_of_le' (by omega : 2 ≤ fuel)
  cases xs with
  | nil => rfl
  | cons x xs =>
    rw [prettyAt_array] at hfuel ⊢
    simp only [List.length_cons, List.length_append] at hfuel
    simp only [List.cons_append, List.append_assoc]
    exact value?_array (elements?_prettyElements h (by omega))

theorem isReread_object {ms : List (Text × Json)} (h : ∀ m ∈ ms, IsReread m.2) :
    IsReread (object ms) := by
  intro depth fuel rest _ hfuel
  obtain ⟨fuel, rfl⟩ := Nat.exists_eq_add_of_le' (by omega : 2 ≤ fuel)
  cases ms with
  | nil => rfl
  | cons m ms =>
    obtain ⟨name, x⟩ := m
    rw [prettyAt_object] at hfuel ⊢
    simp only [List.length_cons, List.length_append] at hfuel
    simp only [List.cons_append, List.append_assoc]
    rw [← ofMembers_map]
    exact value?_object (members?_prettyMembers h (by omega))

theorem Legible.isReread {j : Json} (h : Legible j) : IsReread j := by
  induction h with
  | null => exact isReread_of_succ fun _ _ _ _ => rfl
  | @bool b =>
    cases b with
    | false => exact isReread_of_succ fun _ _ _ _ => rfl
    | true => exact isReread_of_succ fun _ _ _ _ => rfl
  | number h => exact isReread_of_succ fun _ _ _ hrest => value?_number h hrest
  | string => exact isReread_string _
  | unpaired => exact isReread_of_succ fun _ _ _ _ => rfl
  | array _ ih => exact isReread_array ih
  | object _ ih => exact isReread_object ih

theorem Legible.read?_pretty {j : Json} (h : Legible j) : read? j.pretty = some j := by
  have hvalue := h.isReread 0 (2 * j.pretty.length + 2) [] .nil (Nat.le_refl _)
  rw [List.append_nil] at hvalue
  rw [read?]
  change (value? _ (prettyAt 0 j) >>= _) = _
  rw [hvalue]
  rfl

end Mediation.Json
