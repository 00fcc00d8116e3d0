import Mathlib.Data.List.Nodup
import Mediation.Json.Basic

/-! # Records as JSON

A record whose fields have names of their own is read from an object by these names, and from an
array by their places. So what was put into an object under the names comes out of it.
-/

namespace Mediation.Json

variable {names : List Text} {values : List Json} {j : Json} {fields : List (Option Json)}

theorem map_lookup_zip (hnames : names.Nodup) (hlength : names.length = values.length) :
    (names.map fun name => (names.zip values).lookup name) = values.map some := by
  induction names generalizing values with
  | nil => simp [List.length_eq_zero_iff.mp hlength.symm]
  | cons name names ih =>
    cases values with
    | nil => cases hlength
    | cons value values =>
      obtain ⟨hname, hnames⟩ := List.nodup_cons.mp hnames
      have hrest : (names.map fun other => ((name, value) :: names.zip values).lookup other) =
          names.map fun other => (names.zip values).lookup other := by
        apply List.map_congr_left
        intro other hother
        have hne : other ≠ name := fun heq => hname (heq ▸ hother)
        rw [List.lookup_cons, beq_false_of_ne hne]
      rw [List.zip_cons_cons, List.map_cons, hrest, ih hnames (Nat.succ.inj hlength)]
      simp

/-- A record whose fields all have names of their own is read as its fields. -/
theorem fields?_object (hnames : names.Nodup) (hlength : names.length = values.length) :
    fields? names (object (names.zip values)) = some (values.map some) := by
  have hfst : (names.zip values).map Prod.fst = names :=
    List.map_fst_zip (Nat.le_of_eq hlength)
  have hsingle : ∀ name, ((names.zip values).filter (·.1 == name)).length ≤ 1 := by
    intro name
    have hcount := List.nodup_iff_count_le_one.mp hnames name
    rw [← hfst, List.count, List.countP_map] at hcount
    rwa [← List.countP_eq_length_filter]
  rw [fields?, map_lookup_zip hnames hlength, if_neg]
  simpa using fun name _ => hsingle name

/-- The value of a field: in an object by its name, in an array by the place of its name. -/
def field? (names : List Text) (name : Text) : Json → Option Json
  | object members => members.lookup name
  | array elements => elements[names.idxOf name]?
  | _ => none

theorem eq_map_of_fields? (hnames : names.Nodup) (h : fields? names j = some fields) :
    fields = names.map fun name => j.field? names name := by
  cases j with
  | object members =>
    rw [fields?] at h
    split at h
    · cases h
    · exact (Option.some.inj h).symm
  | array elements =>
    rw [fields?] at h
    split at h
    · cases h
    · rename_i hlength
      rw [← Option.some.inj h]
      apply List.ext_getElem
      · simp only [List.length_append, List.length_map, List.length_replicate]
        omega
      · intro i hi hi'
        have hname : i < names.length := by simpa using hi'
        have hplace : names.idxOf names[i] = i := hnames.idxOf_getElem i hname
        rw [List.getElem_map, field?, hplace, List.getElem_append]
        split
        · simp_all
        · rename_i hlast
          rw [List.length_map, Nat.not_lt] at hlast
          simp [List.getElem?_eq_none hlast]
  | _ => cases h

end Mediation.Json
